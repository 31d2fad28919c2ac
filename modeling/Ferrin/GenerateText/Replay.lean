import Ferrin.Approval.Collect
import Ferrin.GenerateText.Tools

/-!
The replay of approval responses found in the message history: approved calls
are verified and run, denied ones are recorded.
-/
namespace Ferrin.GenerateText
open Ferrin.Approval

/-- What an approved response comes to. -/
inductive Replayed where
  | Skipped
  | Output (content : StepContent)
  | Denied (approval : ToolApproval)
  | Execute (call : ParsedToolCall)

structure ReplayPlan where
  outputs : List StepContent
  denied : List ToolApproval
  to_execute : List ParsedToolCall

def ReplayPlan.record (plan : ReplayPlan) : Replayed → ReplayPlan
  | .Skipped => plan
  | .Output content => { plan with outputs := plan.outputs ++ [content] }
  | .Denied approval => { plan with denied := plan.denied ++ [approval] }
  | .Execute call => { plan with to_execute := plan.to_execute ++ [call] }

def check_context (ctx : LoopContext) (environment : ToolEnvironment) (approval : ToolApproval) : Except Error Unit :=
  match ctx.execution_tools.get approval.tool_call.tool_name with
  | some tool =>
    if !approval.tool_call.provider_executed && tool.is_executable then
      match tool.validate_named_context approval.tool_call.tool_name environment.tools_context with
      | .ok _ => .ok ()
      | .error error => .error (.InvalidArgument "tools_context" error)
    else .ok ()
  | none => .ok ()

def signed_fields (approval : ToolApproval) : SignedFields :=
  ⟨approval.request.approval_id,approval.tool_call.tool_call_id,approval.tool_call.tool_name,approval.tool_call.input⟩

def check_signature (ctx : LoopContext) (approval : ToolApproval) : Except Error Unit :=
  match ctx.tool_approval_secret with
  | none => .ok ()
  | some secret =>
    match approval.request.signature with
    | none => .error (.InvalidToolApproval approval.request.approval_id "missing signature")
    | some signature =>
      if verify ctx.primitives secret (signed_fields approval) signature then .ok ()
      else .error (.InvalidToolApproval approval.request.approval_id "invalid signature")

def replayed_call (tool : Option Tool) (part : ToolCallPart) : ParsedToolCall :=
  { ParsedToolCall.new part.tool_call_id part.tool_name part.input with
    dynamic := tool.any (·.kind.is_dynamic)
    provider_metadata := part.provider_options
    tool_metadata := tool.bind (·.metadata) }

def invalid_input_error (call : ParsedToolCall) (cause : String) : ToolExecutionError where
  tool_call_id := call.tool_call_id
  tool_name := call.tool_name
  input := call.input
  error := .Text (Error.to_string (.InvalidToolInput call.tool_name "" cause))
  provider_executed := false
  dynamic := call.dynamic
  tool_metadata := call.tool_metadata
  provider_metadata := call.provider_metadata

def validate_call (tool : Option Tool) (call : ParsedToolCall) : Except String ParsedToolCall :=
  match tool.filter (·.is_executable) with
  | none => .ok call
  | some tool => do return { call with input := ← tool.validate_input call.tool_name call.input }

/-- The policy on a valid call, asked again. -/
def replay_call (ctx : LoopContext) (environment : ToolEnvironment) (messages : List Message)
    (approval : ToolApproval) (call : ParsedToolCall) : Except Error Replayed := do
  let tool := ctx.execution_tools.get call.tool_name
  let tool_ctx ← approval_tool_context ctx call messages environment
  match resolve_approval call tool ctx.tool_approval
      ⟨messages,environment.tools_context,environment.runtime_context⟩ tool_ctx with
  | .Denied reason => return .Denied { approval with
      response := { approval.response with approved := false,reason := reason.or approval.response.reason } }
  | _ => return .Execute call

def replay_approval (ctx : LoopContext) (environment : ToolEnvironment) (messages : List Message)
    (approval : ToolApproval) : Except Error Replayed :=
  if approval.tool_call.provider_executed then .ok .Skipped
  else do
    check_signature ctx approval
    let tool := ctx.execution_tools.get approval.tool_call.tool_name
    let call := replayed_call tool approval.tool_call
    match validate_call tool call with
    | .error cause => return .Output (.ToolError (invalid_input_error call cause))
    | .ok call => replay_call ctx environment messages approval call

/-- Everything before the first tool runs. -/
def plan_replay (ctx : LoopContext) (environment : ToolEnvironment) (messages : List Message) :
    Except Error ReplayPlan := do
  let collected ← collect_tool_approvals messages
  collected.approved.forM (check_context ctx environment)
  collected.approved.foldlM (fun plan approval => do
    return plan.record (← replay_approval ctx environment messages approval)) ⟨[],collected.denied,[]⟩

def denied_output (ctx : LoopContext) (approval : ToolApproval) : StepContent :=
  let tool := ctx.execution_tools.get approval.tool_call.tool_name
  .ToolOutputDenied {
    tool_call_id := approval.tool_call.tool_call_id
    tool_name := approval.tool_call.tool_name
    input := approval.tool_call.input
    reason := approval.response.reason
    provider_executed := approval.tool_call.provider_executed
    dynamic := tool.any (·.kind.is_dynamic)
    tool_metadata := tool.bind (·.metadata)
    provider_metadata := approval.tool_call.provider_options }

def denied_outputs (ctx : LoopContext) (denied : List ToolApproval) : List StepContent :=
  (denied.filter (·.existing_result.isNone)).map (denied_output ctx)

def replay_approvals (ctx : LoopContext) (environment : ToolEnvironment) (duration_ms : ToolCallId → Nat)
    (messages : List Message) : Except Error (List StepContent) := do
  let plan ← plan_replay ctx environment messages
  let outputs ← execute_tools ctx messages environment duration_ms plan.to_execute
  return plan.outputs ++ outputs ++ denied_outputs ctx plan.denied

end Ferrin.GenerateText
