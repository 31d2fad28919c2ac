import Ferrin.Fingerprint
import Ferrin.LanguageModel

/-!
Signatures over approval requests.
-/
namespace Ferrin.Approval

def SIGNATURE_DOMAIN : String := "ferrin-tool-approval-v1"

structure SignedFields where
  approval_id : ApprovalId
  tool_call_id : ToolCallId
  tool_name : ToolName
  input : JsonValue

def payload (p : Primitives) (fields : SignedFields) : String :=
  String.ofList ('[' :: (commas ([SIGNATURE_DOMAIN,fields.approval_id,fields.tool_call_id,fields.tool_name,
    hash_canonical p fields.input].map quoted) ++ [']']))

def sign (p : Primitives) (secret : List UInt8) (fields : SignedFields) : String :=
  p.base64url (p.hmac_sha256 secret (bytes (payload p fields)))

def verify (p : Primitives) (secret : List UInt8) (fields : SignedFields) (signature : String) : Bool :=
  match p.base64url_decode signature with
  | none => false
  | some decoded => decoded == p.hmac_sha256 secret (bytes (payload p fields))

end Ferrin.Approval
