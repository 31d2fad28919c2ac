import Ferrin.LanguageModel

/-!
The messages of a conversation, and the prompt messages that a provider
receives in their place.
-/
namespace Ferrin

abbrev ProviderOptions := List (String × JsonObject)

inductive FileSource where
  | Bytes (data : List UInt8)
  | Base64 (data : String)
  | Url (url : String)
  | Reference (reference : List (String × String))
  | Text (text : String)
  | Path (path : String)
  deriving DecidableEq

def FileSource.from_data : FileData → FileSource
  | .Bytes data => .Bytes data
  | .Url url => .Url url
  | .Reference reference => .Reference reference
  | .Text text => .Text text

structure TextPart where
  text : String
  provider_options : Option ProviderOptions
  deriving DecidableEq

structure CustomPart where
  kind : String
  provider_options : Option ProviderOptions
  deriving DecidableEq

structure ReasoningPart where
  text : String
  provider_options : Option ProviderOptions
  deriving DecidableEq

/-- A file, its payload as a source in a message and as data in a prompt. -/
structure FilePart (δ : Type) where
  data : δ
  media_type : MediaType
  filename : Option String
  provider_options : Option ProviderOptions
  deriving DecidableEq

structure ReasoningFilePart (δ : Type) where
  data : δ
  media_type : MediaType
  provider_options : Option ProviderOptions
  deriving DecidableEq

structure ImagePart where
  image : FileSource
  media_type : Option MediaType
  provider_options : Option ProviderOptions
  deriving DecidableEq

structure ToolCallPart where
  tool_call_id : ToolCallId
  tool_name : ToolName
  input : JsonValue
  provider_executed : Bool
  provider_options : Option ProviderOptions
  deriving DecidableEq

inductive ToolResultContentPart where
  | Text (text : String) (provider_options : Option ProviderOptions)
  | File (data : FileData) (media_type : MediaType) (filename : Option String)
      (provider_options : Option ProviderOptions)
  | Custom (provider_options : Option ProviderOptions)
  deriving DecidableEq

inductive ToolResultOutput where
  | Text (value : String) (provider_options : Option ProviderOptions)
  | Json (value : JsonValue) (provider_options : Option ProviderOptions)
  | ExecutionDenied (reason : Option String) (provider_options : Option ProviderOptions)
  | ErrorText (value : String) (provider_options : Option ProviderOptions)
  | ErrorJson (value : JsonValue) (provider_options : Option ProviderOptions)
  | Content (value : List ToolResultContentPart)
  deriving DecidableEq

namespace ToolResultOutput

def text (value : String) : ToolResultOutput := .Text value none
def json (value : JsonValue) : ToolResultOutput := .Json value none
def error_text (value : String) : ToolResultOutput := .ErrorText value none
def error_json (value : JsonValue) : ToolResultOutput := .ErrorJson value none
def execution_denied (reason : Option String) : ToolResultOutput := .ExecutionDenied reason none

end ToolResultOutput

structure ToolResultPart where
  tool_call_id : ToolCallId
  tool_name : ToolName
  output : ToolResultOutput
  provider_options : Option ProviderOptions
  deriving DecidableEq

structure ToolApprovalRequest where
  approval_id : ApprovalId
  tool_call_id : ToolCallId
  reason : Option String
  is_automatic : Bool
  signature : Option String
  deriving DecidableEq

structure ToolApprovalResponse where
  approval_id : ApprovalId
  approved : Bool
  reason : Option String
  provider_executed : Bool
  deriving DecidableEq

inductive UserPart where
  | Text (part : TextPart)
  | Image (part : ImagePart)
  | File (part : FilePart FileSource)
  deriving DecidableEq

inductive AssistantPart where
  | Text (part : TextPart)
  | Custom (part : CustomPart)
  | File (part : FilePart FileSource)
  | Reasoning (part : ReasoningPart)
  | ReasoningFile (part : ReasoningFilePart FileSource)
  | ToolCall (part : ToolCallPart)
  | ToolResult (part : ToolResultPart)
  | ToolApprovalRequest (part : ToolApprovalRequest)
  deriving DecidableEq

inductive ToolPart where
  | ToolResult (part : ToolResultPart)
  | ToolApprovalResponse (part : ToolApprovalResponse)
  deriving DecidableEq

inductive UserContent where
  | Text (text : String)
  | Parts (parts : List UserPart)
  deriving DecidableEq

inductive AssistantContent where
  | Text (text : String)
  | Parts (parts : List AssistantPart)
  deriving DecidableEq

inductive Message where
  | System (content : String) (provider_options : Option ProviderOptions)
  | User (content : UserContent) (provider_options : Option ProviderOptions)
  | Assistant (content : AssistantContent) (provider_options : Option ProviderOptions)
  | Tool (content : List ToolPart) (provider_options : Option ProviderOptions)
  deriving DecidableEq

def AssistantPart.as_tool_approval_request : AssistantPart → Option Ferrin.ToolApprovalRequest
  | .ToolApprovalRequest part => some part
  | _ => none

def ToolPart.as_tool_result : ToolPart → Option ToolResultPart
  | .ToolResult part => some part
  | .ToolApprovalResponse _ => none

def ToolPart.as_tool_approval_response : ToolPart → Option Ferrin.ToolApprovalResponse
  | .ToolApprovalResponse part => some part
  | .ToolResult _ => none

/-- `AssistantContent::as_parts`, with no parts for a text. -/
def AssistantContent.as_parts : AssistantContent → List AssistantPart
  | .Text _ => []
  | .Parts parts => parts

def Message.assistant_parts (parts : List AssistantPart) : Message := .Assistant (.Parts parts) none
def Message.tool (parts : List ToolPart) : Message := .Tool parts none

/-! ### Prompt messages -/

structure ToolApprovalResponsePart where
  approval_id : ApprovalId
  approved : Bool
  reason : Option String
  provider_options : Option ProviderOptions
  deriving DecidableEq

inductive UserPromptPart where
  | Text (part : TextPart)
  | File (part : FilePart FileData)
  deriving DecidableEq

inductive AssistantPromptPart where
  | Text (part : TextPart)
  | Custom (part : CustomPart)
  | File (part : FilePart FileData)
  | Reasoning (part : ReasoningPart)
  | ReasoningFile (part : ReasoningFilePart FileData)
  | ToolCall (part : ToolCallPart)
  | ToolResult (part : ToolResultPart)
  deriving DecidableEq

inductive ToolPromptPart where
  | ToolResult (part : ToolResultPart)
  | ToolApprovalResponse (part : ToolApprovalResponsePart)
  deriving DecidableEq

inductive PromptMessage where
  | System (content : String) (provider_options : Option ProviderOptions)
  | User (content : List UserPromptPart) (provider_options : Option ProviderOptions)
  | Assistant (content : List AssistantPromptPart) (provider_options : Option ProviderOptions)
  | Tool (content : List ToolPromptPart) (provider_options : Option ProviderOptions)
  deriving DecidableEq

abbrev Prompt := List PromptMessage

end Ferrin
