import Ferrin.GenerateText.ParseToolCall
import Ferrin.GenerateText.Tools
import Ferrin.GenerateText.ResponseMessages
import Mathlib.Data.Finset.Card

/-!
One step of the non-streaming loop: the content of the model, its tool calls,
their approval and execution, and the counters that decide on another step.
-/
namespace Ferrin.GenerateText
open Ferrin.Approval

/-- The continuation bookkeeping of one step. -/
structure LoopState where
  client_tool_calls : Nat
  client_tool_outputs : Nat
  denied_approvals : Nat
  pending_deferred : Nat

def LoopState.should_continue (s : LoopState) : Bool :=
  s.client_tool_outputs + s.denied_approvals = s.client_tool_calls ∧ (s.client_tool_calls > 0 ∨ s.pending_deferred > 0)

def is_tool_execution_allowed (finish_reason : FinishReason) : Bool :=
  match finish_reason.unified with
  | .Stop | .ToolCalls => true
  | _ => false

structure StepInputs where
  parse : ParseContext
  messages : List Message
  environment : ToolEnvironment

/-- The response of a model, as far as a step reads it. -/
structure GenerateResult where
  content : List Content
  finish_reason : FinishReason

structure StepResult where
  content : List StepContent
  messages : List Message
  finish_reason : FinishReason
  executed : List ParsedToolCall
  state : LoopState
  pending_deferred : Finset ToolCallId

/-! ### Model content -/

def findCall (calls : List ParsedToolCall) (id : ToolCallId) : Option ParsedToolCall :=
  calls.find? (·.tool_call_id = id)

def provider_tool_result (tools : ToolSet) (calls : List ParsedToolCall) (result : ProviderToolResult) :
    StepContent :=
  let call := findCall calls result.tool_call_id
  let tool := tools.get result.tool_name
  let tool_metadata := (call.bind (·.tool_metadata)).or (tool.bind (·.metadata))
  let input := (call.map (·.input)).getD .null
  let dynamic := result.dynamic || tool.any (·.kind.is_dynamic)
  if result.is_error then .ToolError {
    tool_call_id := result.tool_call_id
    tool_name := result.tool_name
    input
    error := .Json result.result
    provider_executed := true
    dynamic
    tool_metadata
    provider_metadata := result.provider_metadata }
  else .ToolResult {
    tool_call_id := result.tool_call_id
    tool_name := result.tool_name
    input
    output := result.result
    provider_executed := true
    dynamic
    preliminary := result.preliminary
    execution_ms := none
    tool_metadata
    provider_metadata := result.provider_metadata }

def provider_approval_request (approval_id : ApprovalId) (call : ParsedToolCall)
    (provider_metadata : Option ProviderMetadata) : ToolApprovalRequestContent :=
  ⟨approval_id,call,none,false,none,provider_metadata⟩

def convert_part (parse_ctx : ParseContext) (tools : ToolSet) (calls : List ParsedToolCall) :
    Content → Option StepContent
  | .Text text provider_metadata => some (.Text text provider_metadata)
  | .Reasoning text provider_metadata => some (.Reasoning text provider_metadata)
  | .ReasoningFile data media_type provider_metadata => some (.ReasoningFile ⟨data,media_type,none,provider_metadata⟩)
  | .File data media_type filename provider_metadata => some (.File ⟨data,media_type,filename,provider_metadata⟩)
  | .Custom kind provider_metadata => some (.Custom kind provider_metadata)
  | .Source source => some (.Source source)
  | .ToolCall call => some (.ToolCall (parse_tool_call parse_ctx call))
  | .ToolResult result => some (provider_tool_result tools calls result)
  | .ToolApprovalRequest approval_id tool_call_id provider_metadata =>
    (findCall calls tool_call_id).map fun call =>
      .ToolApprovalRequest (provider_approval_request approval_id call provider_metadata)

/-- The converted content after `calls`. The calls of the whole are those in the result. -/
def convert_from (parse_ctx : ParseContext) (tools : ToolSet) (calls : List ParsedToolCall) :
    List Content → List StepContent
  | [] => []
  | part :: rest =>
    let converted := (convert_part parse_ctx tools calls part).toList
    converted ++ convert_from parse_ctx tools (calls ++ tool_calls converted) rest

def convert_content (parse_ctx : ParseContext) (tools : ToolSet) (content : List Content) :
    List StepContent × List ParsedToolCall :=
  let converted := convert_from parse_ctx tools [] content
  (converted,tool_calls converted)

def provider_result_ids (content : List Content) : Finset ToolCallId :=
  (content.filterMap fun
    | .ToolResult result => some result.tool_call_id
    | _ => none).toFinset

/-- The calls that the client runs: its own, valid and not held back. -/
def to_execute (calls : List ParsedToolCall) (blocked : Finset ToolCallId) : List ParsedToolCall :=
  calls.filter fun call => !call.provider_executed && !call.invalid && call.tool_call_id ∉ blocked

def client_calls (calls : List ParsedToolCall) : List ParsedToolCall := calls.filter (!·.provider_executed)

def run_step (ctx : LoopContext) (inputs : StepInputs) (duration_ms : ToolCallId → Nat) (result : GenerateResult)
    (pending_deferred : Finset ToolCallId) : Except Error StepResult := do
  let (content,calls) := convert_content inputs.parse ctx.execution_tools result.content
  check_tool_choice inputs.parse.tool_choice calls
  let approvals ← resolve_approvals ctx inputs.messages inputs.environment calls
  let execute := if is_tool_execution_allowed result.finish_reason then to_execute calls approvals.blocked else []
  let outputs ← execute_tools ctx inputs.messages inputs.environment duration_ms execute
  let tool_outputs := invalid_tool_errors calls ++ outputs
  let pending := track_deferred calls (provider_result_ids result.content) ctx.execution_tools pending_deferred
  let content := content ++ approvals.requests.map .ToolApprovalRequest ++
    approvals.responses.map .ToolApprovalResponse ++ tool_outputs
  return {
    content
    messages := to_response_messages ctx.tools content
    finish_reason := result.finish_reason
    executed := (tasks ctx execute).map (·.1)
    state := {
      client_tool_calls := (client_calls calls).length
      client_tool_outputs := tool_outputs.length
      denied_approvals := (approvals.responses.filter (!·.approved)).length
      pending_deferred := pending.card }
    pending_deferred := pending }

def LoopContext.plain (tools : ToolSet) (tool_approval : Option ApprovalPolicy) : LoopContext where
  execution_tools := tools
  tools := tools
  tool_approval := tool_approval
  tool_approval_secret := none
  generate := fun id => id
  primitives := ⟨fun _ => [],fun bytes => bytes,fun key bytes => key ++ bytes,fun _ => "",fun _ => none⟩

def StepInputs.plain (tools : ToolSet) : StepInputs where
  parse := ⟨tools,none,none,[],fun _ => .ok (.object []),fun _ => none⟩
  messages := []
  environment := ⟨none,none⟩

def plainTool (output : JsonValue) : Tool where
  kind := .Function
  title := none
  metadata := none
  validate_input := fun _ input => .ok input
  validate_named_context := fun _ _ => .ok none
  needs_approval := .Never
  execute := some fun _ _ => ⟨[],.ok output⟩
  to_model_output := none

end Ferrin.GenerateText
