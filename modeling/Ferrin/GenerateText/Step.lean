import Ferrin.Tool

/-!
The content of a step.
-/
namespace Ferrin.GenerateText

structure GeneratedFile where
  data : FileData
  media_type : MediaType
  filename : Option String
  provider_metadata : Option ProviderMetadata
  deriving DecidableEq

structure ParsedToolCall where
  tool_call_id : ToolCallId
  tool_name : ToolName
  input : JsonValue
  provider_executed : Bool
  dynamic : Bool
  invalid : Bool
  error : Option String
  title : Option String
  tool_metadata : Option JsonObject
  provider_metadata : Option ProviderMetadata
  deriving DecidableEq

/-- A valid, client-executed, static call. -/
def ParsedToolCall.new (tool_call_id : ToolCallId) (tool_name : ToolName) (input : JsonValue) : ParsedToolCall :=
  ⟨tool_call_id,tool_name,input,false,false,false,none,none,none,none⟩

structure ToolResult where
  tool_call_id : ToolCallId
  tool_name : ToolName
  input : JsonValue
  output : JsonValue
  provider_executed : Bool
  dynamic : Bool
  preliminary : Bool
  execution_ms : Option Nat
  tool_metadata : Option JsonObject
  provider_metadata : Option ProviderMetadata
  deriving DecidableEq

inductive ToolErrorInfo where
  | Text (message : String)
  | Json (value : JsonValue)
  deriving DecidableEq

namespace ToolErrorInfo

def to_json_value : ToolErrorInfo → JsonValue
  | .Text message => .string message
  | .Json value => value

/-- `From<&ToolError>`. -/
def from_error : ToolError → ToolErrorInfo
  | .Json value => .Json value
  | .Message text => .Text text
  | .Cancelled => .Text "tool execution cancelled"

end ToolErrorInfo

structure ToolExecutionError where
  tool_call_id : ToolCallId
  tool_name : ToolName
  input : JsonValue
  error : ToolErrorInfo
  provider_executed : Bool
  dynamic : Bool
  tool_metadata : Option JsonObject
  provider_metadata : Option ProviderMetadata
  deriving DecidableEq

structure ToolApprovalRequestContent where
  approval_id : ApprovalId
  tool_call : ParsedToolCall
  reason : Option String
  is_automatic : Bool
  signature : Option String
  provider_metadata : Option ProviderMetadata
  deriving DecidableEq

structure ToolApprovalResponseContent where
  approval_id : ApprovalId
  tool_call : ParsedToolCall
  approved : Bool
  reason : Option String
  provider_executed : Bool
  deriving DecidableEq

structure ToolOutputDenied where
  tool_call_id : ToolCallId
  tool_name : ToolName
  input : JsonValue
  reason : Option String
  provider_executed : Bool
  dynamic : Bool
  tool_metadata : Option JsonObject
  provider_metadata : Option ProviderMetadata
  deriving DecidableEq

inductive StepContent where
  | Text (text : String) (provider_metadata : Option ProviderMetadata)
  | Reasoning (text : String) (provider_metadata : Option ProviderMetadata)
  | ReasoningFile (file : GeneratedFile)
  | File (file : GeneratedFile)
  | Custom (kind : String) (provider_metadata : Option ProviderMetadata)
  | Source (source : Source)
  | ToolCall (call : ParsedToolCall)
  | ToolResult (result : ToolResult)
  | ToolError (error : ToolExecutionError)
  | ToolApprovalRequest (request : ToolApprovalRequestContent)
  | ToolApprovalResponse (response : ToolApprovalResponseContent)
  | ToolOutputDenied (denied : ToolOutputDenied)
  deriving DecidableEq

/-! ### Reading a step -/

namespace StepContent

def asText : StepContent → Option String
  | .Text text _ => some text
  | _ => none

def asReasoning : StepContent → Option String
  | .Reasoning text _ => some text
  | _ => none

def asToolCall : StepContent → Option ParsedToolCall
  | .ToolCall call => some call
  | _ => none

end StepContent

/-- `StepResult::text`. -/
def text (content : List StepContent) : String := String.join (content.filterMap (·.asText))

/-- `StepResult::reasoning_text`, which is absent when no part is reasoning. -/
def reasoning_text (content : List StepContent) : Option String :=
  match content.filterMap (·.asReasoning) with
  | [] => none
  | parts => some (String.join parts)

def tool_calls (content : List StepContent) : List ParsedToolCall := content.filterMap (·.asToolCall)

end Ferrin.GenerateText
