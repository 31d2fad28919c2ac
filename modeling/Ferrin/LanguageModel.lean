import Ferrin.Json

/-!
The vocabulary of a language model call: the content of a response and the
parts of a streamed one.
-/
namespace Ferrin

abbrev PartId := String
abbrev ToolCallId := String
abbrev ToolName := String
abbrev ApprovalId := String
abbrev ModelId := String
abbrev MediaType := String

abbrev ProviderMetadata := List (String × JsonObject)

inductive Warning where
  | Unsupported (feature : String) (details : Option String)
  | Compatibility (feature : String) (details : Option String)
  | Deprecated (setting : String) (message : String)
  | Other (message : String)
  deriving DecidableEq

inductive FileData where
  | Bytes (data : List UInt8)
  | Url (url : String)
  | Reference (reference : List (String × String))
  | Text (text : String)
  deriving DecidableEq

inductive FinishReasonKind where
  | Stop
  | Length
  | ContentFilter
  | ToolCalls
  | Error
  | Other
  deriving DecidableEq

structure FinishReason where
  unified : FinishReasonKind
  raw : Option String
  deriving DecidableEq

def FinishReason.new (unified : FinishReasonKind) : FinishReason := ⟨unified,none⟩
def FinishReason.with_raw (unified : FinishReasonKind) (raw : String) : FinishReason := ⟨unified,some raw⟩
def FinishReason.error : FinishReason := .new .Error

structure InputTokens where
  total : Option Nat
  no_cache : Option Nat
  cache_read : Option Nat
  cache_write : Option Nat
  deriving DecidableEq

structure OutputTokens where
  total : Option Nat
  text : Option Nat
  reasoning : Option Nat
  deriving DecidableEq

structure Usage where
  input : InputTokens
  output : OutputTokens
  raw : Option JsonObject
  deriving DecidableEq

def Usage.default : Usage := ⟨⟨none,none,none,none⟩,⟨none,none,none⟩,none⟩

inductive StreamErrorCode where
  | Text (text : String)
  | Number (number : Int)
  deriving DecidableEq

structure StreamError where
  message : String
  error_type : Option String
  code : Option StreamErrorCode
  status_code : Option Nat
  is_retryable : Option Bool
  data : Option JsonValue
  deriving DecidableEq

def StreamError.new (message : String) : StreamError := ⟨message,none,none,none,none,none⟩

/-- A provider error, as far as streams read it: its text, and what an API call error carries. -/
structure ProviderError where
  message : String
  is_retryable : Bool
  status_code : Option Nat
  data : Option JsonValue
  deriving DecidableEq

/-- `InvalidResponseDataError::new(message, ..).into()`. -/
def ProviderError.invalid_response_data (message : String) : ProviderError := ⟨message,false,none,none⟩

def StreamError.from_provider_error (error : ProviderError) : StreamError where
  message := error.message
  error_type := none
  code := none
  status_code := error.status_code
  is_retryable := some error.is_retryable
  data := error.data

structure ToolCall where
  tool_call_id : ToolCallId
  tool_name : ToolName
  input : String
  provider_executed : Bool
  dynamic : Bool
  provider_metadata : Option ProviderMetadata
  deriving DecidableEq

def ToolCall.new (id : ToolCallId) (name : ToolName) (input : String) : ToolCall := ⟨id,name,input,false,false,none⟩

structure ProviderToolResult where
  tool_call_id : ToolCallId
  tool_name : ToolName
  result : JsonValue
  is_error : Bool
  preliminary : Bool
  dynamic : Bool
  provider_metadata : Option ProviderMetadata
  deriving DecidableEq

inductive Source where
  | Url (id : String) (url : String) (title : Option String) (provider_metadata : Option ProviderMetadata)
  | Document (id : String) (media_type : MediaType) (title : String) (filename : Option String)
      (provider_metadata : Option ProviderMetadata)
  deriving DecidableEq

/-- A content part of a complete response. -/
inductive Content where
  | Text (text : String) (provider_metadata : Option ProviderMetadata)
  | Reasoning (text : String) (provider_metadata : Option ProviderMetadata)
  | ReasoningFile (data : FileData) (media_type : MediaType) (provider_metadata : Option ProviderMetadata)
  | File (data : FileData) (media_type : MediaType) (filename : Option String)
      (provider_metadata : Option ProviderMetadata)
  | Custom (kind : String) (provider_metadata : Option ProviderMetadata)
  | Source (source : Source)
  | ToolCall (call : ToolCall)
  | ToolResult (result : ProviderToolResult)
  | ToolApprovalRequest (approval_id : ApprovalId) (tool_call_id : ToolCallId)
      (provider_metadata : Option ProviderMetadata)
  deriving DecidableEq

inductive StreamPart where
  | StreamStart (warnings : List Warning)
  | ResponseMetadata (id : Option String) (timestamp : Option Int) (model_id : Option ModelId)
  | TextStart (id : PartId) (provider_metadata : Option ProviderMetadata)
  | TextDelta (id : PartId) (delta : String) (provider_metadata : Option ProviderMetadata)
  | TextEnd (id : PartId) (provider_metadata : Option ProviderMetadata)
  | ReasoningStart (id : PartId) (provider_metadata : Option ProviderMetadata)
  | ReasoningDelta (id : PartId) (delta : String) (provider_metadata : Option ProviderMetadata)
  | ReasoningEnd (id : PartId) (provider_metadata : Option ProviderMetadata)
  | ToolInputStart (id : ToolCallId) (tool_name : ToolName) (provider_executed : Bool) (dynamic : Bool)
      (title : Option String) (provider_metadata : Option ProviderMetadata)
  | ToolInputDelta (id : ToolCallId) (delta : String) (provider_metadata : Option ProviderMetadata)
  | ToolInputEnd (id : ToolCallId) (provider_metadata : Option ProviderMetadata)
  | ToolCall (call : ToolCall)
  | ToolResult (result : ProviderToolResult)
  | ToolApprovalRequest (approval_id : ApprovalId) (tool_call_id : ToolCallId)
      (provider_metadata : Option ProviderMetadata)
  | File (data : FileData) (media_type : MediaType) (filename : Option String)
      (provider_metadata : Option ProviderMetadata)
  | ReasoningFile (data : FileData) (media_type : MediaType) (provider_metadata : Option ProviderMetadata)
  | Source (source : Source)
  | Custom (kind : String) (provider_metadata : Option ProviderMetadata)
  | Finish (finish_reason : FinishReason) (usage : Usage) (provider_metadata : Option ProviderMetadata)
  | Raw (raw_value : JsonValue)
  | Error (error : StreamError)
  deriving DecidableEq

def StreamPart.text_delta (id : PartId) (delta : String) : StreamPart := .TextDelta id delta none
def StreamPart.error (error : ProviderError) : StreamPart := .Error (.from_provider_error error)

def StreamPart.kind_name : StreamPart → String
  | .StreamStart .. => "stream-start"
  | .ResponseMetadata .. => "response-metadata"
  | .TextStart .. => "text-start"
  | .TextDelta .. => "text-delta"
  | .TextEnd .. => "text-end"
  | .ReasoningStart .. => "reasoning-start"
  | .ReasoningDelta .. => "reasoning-delta"
  | .ReasoningEnd .. => "reasoning-end"
  | .ToolInputStart .. => "tool-input-start"
  | .ToolInputDelta .. => "tool-input-delta"
  | .ToolInputEnd .. => "tool-input-end"
  | .ToolCall .. => "tool-call"
  | .ToolResult .. => "tool-result"
  | .ToolApprovalRequest .. => "tool-approval-request"
  | .File .. => "file"
  | .ReasoningFile .. => "reasoning-file"
  | .Source .. => "source"
  | .Custom .. => "custom"
  | .Finish .. => "finish"
  | .Raw .. => "raw"
  | .Error .. => "error"

def StreamPart.isTerminal : StreamPart → Bool
  | .Finish .. | .Error .. => true
  | _ => false

end Ferrin
