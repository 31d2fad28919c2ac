import Ferrin.Message

/-!
The errors of the core that the loops raise or record.
-/
namespace Ferrin

inductive Error where
  | Cancelled
  | InvalidArgument (argument message : String)
  | InvalidPrompt (message : String)
  | MessageConversion (message : String) (original_message : Message)
  | InvalidDataContent (message : String)
  | NoSuchTool (tool_name : ToolName) (available_tools : List ToolName)
  | InvalidToolInput (tool_name : ToolName) (tool_input : String) (cause : String)
  | ToolCallRepair (original : Error) (cause : String)
  | ToolChoiceViolation (expected actual : ToolName)
  | ToolCallNotFoundForApproval (tool_call_id : ToolCallId) (approval_id : ApprovalId)
  | ToolChoiceNotSatisfied (expected : Option ToolName)
  | InvalidToolApproval (approval_id : ApprovalId) (message : String)
  | InvalidStreamPart (message : String)
  | Stream (error : StreamError)
  | Other (message : String)
  deriving DecidableEq

/-- The `Display` text. An original error and a cause are kept for the source chain only. -/
def Error.to_string : Error → String
  | .Cancelled => "operation cancelled"
  | .InvalidArgument argument message => s!"invalid argument `{argument}`: {message}"
  | .InvalidPrompt message => s!"invalid prompt: {message}"
  | .MessageConversion message _ => s!"message conversion failed: {message}"
  | .InvalidDataContent message => s!"invalid data content: {message}"
  | .NoSuchTool tool_name _ => s!"no such tool `{tool_name}`"
  | .InvalidToolInput tool_name _ _ => s!"invalid input for tool `{tool_name}`"
  | .ToolCallRepair _ _ => "tool call repair failed"
  | .ToolChoiceViolation expected actual => s!"tool choice violated: expected `{expected}`, got `{actual}`"
  | .ToolCallNotFoundForApproval tool_call_id approval_id =>
    s!"tool call `{tool_call_id}` not found for approval `{approval_id}`"
  | .ToolChoiceNotSatisfied none => "tool choice not satisfied: a tool call was required"
  | .ToolChoiceNotSatisfied (some name) => s!"tool choice not satisfied: expected a call to `{name}`"
  | .InvalidToolApproval approval_id message => s!"invalid tool approval `{approval_id}`: {message}"
  | .InvalidStreamPart message => s!"invalid stream part: {message}"
  | .Stream error => s!"stream error: {error.message}"
  | .Other message => message

end Ferrin
