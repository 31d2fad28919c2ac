import Ferrin.GenerateText.Step

/-!
The approval status of a tool call: the policy of the generation first, then
the declaration of the tool.
-/
namespace Ferrin.Approval
open Ferrin.GenerateText

inductive ApprovalStatus where
  | NotApplicable
  | Approved (reason : Option String)
  | Denied (reason : Option String)
  | UserApproval (reason : Option String)

def ApprovalStatus.reason : ApprovalStatus → Option String
  | .NotApplicable => none
  | .Approved reason | .Denied reason | .UserApproval reason => reason

structure ApprovalContext where
  messages : List Message
  tools_context : Option JsonValue
  runtime_context : Option JsonValue

abbrev ApprovalPolicy := ParsedToolCall → ApprovalContext → Option ApprovalStatus

def resolve_approval (call : ParsedToolCall) (tool : Option Tool) (policy : Option ApprovalPolicy)
    (ctx : ApprovalContext) (tool_ctx : ToolContext) : ApprovalStatus :=
  match policy.bind fun policy => policy call ctx with
  | some status => status
  | none =>
    match tool with
    | none => .NotApplicable
    | some tool =>
      if tool.needs_approval.is_declared ∧ tool.needs_approval.resolve call.input tool_ctx then .UserApproval none
      else .NotApplicable

end Ferrin.Approval
