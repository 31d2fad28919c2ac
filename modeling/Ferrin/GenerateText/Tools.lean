import Ferrin.Approval.Resolve
import Ferrin.Approval.Signature
import Ferrin.Library.Result
import Mathlib.Data.Finset.Basic

/-!
Tool calls inside the generation loop: their approval, the errors of invalid
ones, deferred results and execution. Both loops share these functions.
-/
namespace Ferrin.GenerateText
open Ferrin.Approval

structure LoopContext where
  execution_tools : ToolSet
  tools : ToolSet
  tool_approval : Option ApprovalPolicy
  tool_approval_secret : Option (List UInt8)
  generate : ToolCallId → ApprovalId
  primitives : Primitives

structure ToolEnvironment where
  tools_context : Option JsonValue
  runtime_context : Option JsonValue

def tool_context (tool : Tool) (tool_call_id : ToolCallId) (tool_name : ToolName) (messages : List Message)
    (environment : ToolEnvironment) : Except Error ToolContext :=
  match tool.validate_named_context tool_name environment.tools_context with
  | .ok validated => .ok ⟨tool_call_id,messages,validated⟩
  | .error error => .error (.InvalidArgument "tools_context" error)

def invalid_tool_error (call : ParsedToolCall) : ToolExecutionError where
  tool_call_id := call.tool_call_id
  tool_name := call.tool_name
  input := call.input
  error := .Text (call.error.getD "")
  provider_executed := false
  dynamic := true
  tool_metadata := call.tool_metadata
  provider_metadata := call.provider_metadata

def invalid_tool_errors (calls : List ParsedToolCall) : List StepContent :=
  (calls.filter fun call => call.invalid && call.dynamic && !call.provider_executed).map fun call =>
    .ToolError (invalid_tool_error call)

def supports_deferred_results (tools : ToolSet) (tool_name : ToolName) : Bool :=
  match tools.get tool_name with
  | some tool =>
    match tool.kind with
    | .ProviderExecuted _ _ supports_deferred_results => supports_deferred_results
    | _ => false
  | none => false

def track_deferred (calls : List ParsedToolCall) (result_ids : Finset ToolCallId) (tools : ToolSet)
    (pending : Finset ToolCallId) : Finset ToolCallId :=
  let deferred := calls.filter fun call =>
    call.provider_executed && supports_deferred_results tools call.tool_name && call.tool_call_id ∉ result_ids
  (deferred.foldl (fun pending call => insert call.tool_call_id pending) pending) \ result_ids

/-! ### Approval -/

structure StepApprovals where
  requests : List ToolApprovalRequestContent
  responses : List ToolApprovalResponseContent
  blocked : Finset ToolCallId

/-- The approval of one call: its request, the automatic decision, and whether it must not run. -/
structure CallApproval where
  request : ToolApprovalRequestContent
  response : Option ToolApprovalResponseContent
  blocked : Bool

def approval_tool_context (ctx : LoopContext) (call : ParsedToolCall) (messages : List Message)
    (environment : ToolEnvironment) : Except Error ToolContext :=
  match ctx.execution_tools.get call.tool_name with
  | some tool => tool_context tool call.tool_call_id call.tool_name messages environment
  | none => .ok ⟨call.tool_call_id,[],none⟩

def call_approval (ctx : LoopContext) (call : ParsedToolCall) (status : ApprovalStatus) : Option CallApproval :=
  let approval_id := ctx.generate call.tool_call_id
  let request (is_automatic : Bool) : ToolApprovalRequestContent := {
    approval_id
    tool_call := call
    reason := status.reason
    is_automatic
    signature := ctx.tool_approval_secret.map fun secret =>
      sign ctx.primitives secret ⟨approval_id,call.tool_call_id,call.tool_name,call.input⟩
    provider_metadata := none }
  match status with
  | .NotApplicable => none
  | .Approved reason => some ⟨request true,some ⟨approval_id,call,true,reason,call.provider_executed⟩,false⟩
  | .Denied reason => some ⟨request true,some ⟨approval_id,call,false,reason,call.provider_executed⟩,true⟩
  | .UserApproval _ => some ⟨request false,none,true⟩

def resolve_call_approval (ctx : LoopContext) (messages : List Message) (environment : ToolEnvironment)
    (call : ParsedToolCall) : Except Error (Option CallApproval) :=
  if call.invalid then .ok none
  else do
    let tool_ctx ← approval_tool_context ctx call messages environment
    let status := resolve_approval call (ctx.execution_tools.get call.tool_name) ctx.tool_approval
      ⟨messages,environment.tools_context,environment.runtime_context⟩ tool_ctx
    return call_approval ctx call status

/-- One turn of the loop of `resolve_approvals`. -/
def StepApprovals.record (approvals : StepApprovals) (call : ParsedToolCall) : Option CallApproval → StepApprovals
  | none => approvals
  | some approval => {
      requests := approvals.requests ++ [approval.request]
      responses := approvals.responses ++ approval.response.toList
      blocked := if approval.blocked then insert call.tool_call_id approvals.blocked else approvals.blocked }

def resolve_approvals (ctx : LoopContext) (messages : List Message) (environment : ToolEnvironment)
    (calls : List ParsedToolCall) : Except Error StepApprovals :=
  calls.foldlM (fun approvals call => do
    return approvals.record call (← resolve_call_approval ctx messages environment call)) ⟨[],[],∅⟩

def executable (ctx : LoopContext) (call : ParsedToolCall) : Option Tool :=
  (ctx.execution_tools.get call.tool_name).filter (·.is_executable)

def run_tool_call (call : ParsedToolCall) (tool : Tool) (tool_ctx : ToolContext) (duration_ms : Nat) :
    Except Error StepContent :=
  let output := match tool.execute with
    | some execute => (execute call.input tool_ctx).output
    | none => .error (.Message "tool has no execute function")
  match output with
  | .ok output => .ok (.ToolResult {
      tool_call_id := call.tool_call_id
      tool_name := call.tool_name
      input := call.input
      output
      provider_executed := false
      dynamic := call.dynamic
      preliminary := false
      execution_ms := some duration_ms
      tool_metadata := call.tool_metadata
      provider_metadata := call.provider_metadata })
  | .error .Cancelled => .error .Cancelled
  | .error error => .ok (.ToolError {
      tool_call_id := call.tool_call_id
      tool_name := call.tool_name
      input := call.input
      error := .from_error error
      provider_executed := false
      dynamic := call.dynamic
      tool_metadata := call.tool_metadata
      provider_metadata := call.provider_metadata })

/-- One task: its context and its run, which took `duration_ms`. -/
def tool_task (messages : List Message) (environment : ToolEnvironment)
    (duration_ms : ToolCallId → Nat) (call : ParsedToolCall) (tool : Tool) : Except Error StepContent := do
  let tool_ctx ← tool_context tool call.tool_call_id call.tool_name messages environment
  run_tool_call call tool tool_ctx (duration_ms call.tool_call_id)

def tasks (ctx : LoopContext) (calls : List ParsedToolCall) : List (ParsedToolCall × Tool) :=
  calls.filterMap fun call => (executable ctx call).map (call,·)

/-- The outputs in call order. The tasks run side by side, and the first that is cancelled fails the whole. -/
def execute_tools (ctx : LoopContext) (messages : List Message) (environment : ToolEnvironment)
    (duration_ms : ToolCallId → Nat) (calls : List ParsedToolCall) : Except Error (List StepContent) :=
  (tasks ctx calls).mapM fun (call,tool) => tool_task messages environment duration_ms call tool

end Ferrin.GenerateText
