import Ferrin.GenerateText.Step
import Ferrin.Library.StableSort

/-!
The messages that a step sends back to the model: an assistant message for the
content of the model, and a tool message for what the client made of its calls,
in the order of the calls.
-/
namespace Ferrin.GenerateText

def tool_error_output : ToolErrorInfo → ToolResultOutput
  | .Text message => .error_text message
  | .Json value => .error_json value

def result_part (tools : ToolSet) (result : ToolResult) : ToolResultPart where
  tool_call_id := result.tool_call_id
  tool_name := result.tool_name
  output := create_tool_model_output (tools.get result.tool_name) result.tool_call_id result.input result.output .None
  provider_options := result.provider_metadata

def error_part (error : ToolExecutionError) : ToolResultPart :=
  ⟨error.tool_call_id,error.tool_name,tool_error_output error.error,error.provider_metadata⟩

def provider_error_part (tools : ToolSet) (error : ToolExecutionError) : ToolResultPart where
  tool_call_id := error.tool_call_id
  tool_name := error.tool_name
  output := create_tool_model_output (tools.get error.tool_name) error.tool_call_id error.input
    error.error.to_json_value .Json
  provider_options := error.provider_metadata

def denied_part (denied : ToolOutputDenied) : ToolResultPart :=
  ⟨denied.tool_call_id,denied.tool_name,.execution_denied denied.reason,denied.provider_metadata⟩

def assistant_part (tools : ToolSet) : StepContent → Option AssistantPart
  | .Text text provider_metadata => if text = "" then none else some (.Text ⟨text,provider_metadata⟩)
  | .Reasoning text provider_metadata => some (.Reasoning ⟨text,provider_metadata⟩)
  | .ReasoningFile file => some (.ReasoningFile ⟨.from_data file.data,file.media_type,file.provider_metadata⟩)
  | .File file => some (.File ⟨.from_data file.data,file.media_type,file.filename,file.provider_metadata⟩)
  | .Custom kind provider_metadata => some (.Custom ⟨kind,provider_metadata⟩)
  | .Source _ => none
  | .ToolCall call =>
    let input := if call.invalid ∧ call.input.as_object = none then .object [] else call.input
    some (.ToolCall ⟨call.tool_call_id,call.tool_name,input,call.provider_executed,call.provider_metadata⟩)
  | .ToolResult result => if result.provider_executed then some (.ToolResult (result_part tools result)) else none
  | .ToolError error => if error.provider_executed then some (.ToolResult (provider_error_part tools error)) else none
  | .ToolApprovalRequest request => some (.ToolApprovalRequest
      ⟨request.approval_id,request.tool_call.tool_call_id,request.reason,request.is_automatic,request.signature⟩)
  | .ToolApprovalResponse _ | .ToolOutputDenied _ => none

def tool_part (tools : ToolSet) : StepContent → List (ToolCallId × ToolPart)
  | .ToolApprovalResponse response =>
    let id := response.tool_call.tool_call_id
    let approval := .ToolApprovalResponse
      ⟨response.approval_id,response.approved,response.reason,response.provider_executed⟩
    if response.approved then [(id,approval)]
    else
      let denied := .ToolResult ⟨id,response.tool_call.tool_name,.execution_denied response.reason,
        response.tool_call.provider_metadata⟩
      [(id,approval),(id,denied)]
  | .ToolResult result =>
    if result.provider_executed then [] else [(result.tool_call_id,.ToolResult (result_part tools result))]
  | .ToolError error => if error.provider_executed then [] else [(error.tool_call_id,.ToolResult (error_part error))]
  | .ToolOutputDenied denied =>
    if denied.provider_executed then [] else [(denied.tool_call_id,.ToolResult (denied_part denied))]
  | _ => []

def tool_call_order (content : List StepContent) : List ToolCallId :=
  (tool_calls content).foldl (fun order call =>
    if call.tool_call_id ∈ order then order else order ++ [call.tool_call_id]) []

/-- The place of a call. One past the calls stands for `usize::MAX`. -/
def order_of (content : List StepContent) (id : ToolCallId) : Nat := (tool_call_order content).idxOf id

def tool_parts (tools : ToolSet) (content : List StepContent) : List ToolPart :=
  (StableSort.sortByKey (order_of content ·.1) (content.flatMap (tool_part tools))).map (·.2)

def assistant_parts (tools : ToolSet) (content : List StepContent) : List AssistantPart :=
  content.filterMap (assistant_part tools)

def to_response_messages (tools : ToolSet) (content : List StepContent) : List Message :=
  (match assistant_parts tools content with
    | [] => []
    | parts => [.assistant_parts parts]) ++
  (match tool_parts tools content with
    | [] => []
    | parts => [.tool parts])

def replay_tool_message (tools : ToolSet) (outputs : List StepContent) : Option Message :=
  let parts : List ToolPart := outputs.filterMap fun
    | .ToolResult result => some (.ToolResult (result_part tools result))
    | .ToolError error => some (.ToolResult (error_part error))
    | .ToolOutputDenied denied => some (.ToolResult (denied_part denied))
    | _ => none
  if parts = [] then none else some (.tool parts)

end Ferrin.GenerateText
