import Ferrin.Approval.Decisions
import Ferrin.GenerateText.Replay
import Ferrin.GenerateText.Run
import Ferrin.Tool.Fingerprint

/-!
What a replay runs. With a secret, a tool runs only for a call whose request was
signed, whose response is an approval, and which the policy does not deny again.
-/
namespace Ferrin.GenerateText
open Ferrin.Approval Ferrin.Canonical List
open Result (bind_ok)

/-- The calls whose tools a replay runs. None runs before the plan is complete. -/
def replayed_calls (ctx : LoopContext) (environment : ToolEnvironment) (messages : List Message) : List ParsedToolCall :=
  match plan_replay ctx environment messages with
  | .ok plan => (tasks ctx plan.to_execute).map (·.1)
  | .error _ => []

/-- No signature in the history is forged: one that authenticates a text was made for a quadruple in `signed`. -/
def Unforged (p : Primitives) (secret : List UInt8) (signed : List SignedFields) (messages : List Message) : Prop :=
  ∀ request ∈ approval_requests messages, ∀ signature, request.signature = some signature → ∀ text,
    p.base64url_decode signature = some (p.hmac_sha256 secret text) → ∃ fields ∈ signed, text = bytes (payload p fields)

def Carries (p : Primitives) (secret : List UInt8) (signed : List SignedFields) (request : ToolApprovalRequest)
    (part : ToolCallPart) : Prop :=
  ∃ signature, request.signature = some signature ∧ ∃ fields ∈ signed, verify p secret fields signature = true ∧
    fields.approval_id = request.approval_id ∧ fields.tool_call_id = part.tool_call_id ∧
      fields.tool_name = part.tool_name ∧ Same p fields.input part.input

/-- What lets a replay run a call. -/
structure Backed (ctx : LoopContext) (environment : ToolEnvironment) (messages : List Message) (secret : List UInt8)
    (signed : List SignedFields) (call : ParsedToolCall) (response : ToolApprovalResponse)
    (request : ToolApprovalRequest) (part : ToolCallPart) : Prop where
  answered : response ∈ trailing_responses messages ∧ response.approved = true
  requested : requestOf messages response = some request
  called : callOf messages response = some part
  open_ : resultOf messages part = none
  client : part.provider_executed = false
  carries : Carries ctx.primitives secret signed request part
  validated : validate_call (ctx.execution_tools.get part.tool_name)
    (replayed_call (ctx.execution_tools.get part.tool_name) part) = .ok call
  undenied : ∃ tool_ctx, approval_tool_context ctx call messages environment = .ok tool_ctx ∧
    ∀ reason, resolve_approval call (ctx.execution_tools.get call.tool_name) ctx.tool_approval
      ⟨messages,environment.tools_context,environment.runtime_context⟩ tool_ctx ≠ .Denied reason

section
variable {ctx : LoopContext} {environment : ToolEnvironment} {messages : List Message} {secret : List UInt8}
  {signed : List SignedFields} {approval : ToolApproval} {collected : CollectedApprovals} {plan : ReplayPlan}
  {call : ParsedToolCall}

theorem collected_lists (collecting : collect_tool_approvals messages = .ok collected) :
    Lists messages (trailing_responses messages) collected := by
  have read := collect_responses_read messages (trailing_responses messages)
  rw [collect_eq] at collecting
  cases ran : (trailing_responses messages).foldlM (collect_response (History.of messages)) ⟨.default,[],[]⟩ with
  | error =>
    rw [ran] at collecting
    cases collecting
  | ok state =>
    rw [ran] at collecting read
    cases collecting
    exact read.lists

theorem plan_replay_ok (planned : plan_replay ctx environment messages = .ok plan) :
    ∃ collected, collect_tool_approvals messages = .ok collected ∧
      (∀ approval ∈ collected.approved, ∃ replayed, replay_approval ctx environment messages approval = .ok replayed) ∧
      ∀ call ∈ plan.to_execute, ∃ approval ∈ collected.approved,
        replay_approval ctx environment messages approval = .ok (.Execute call) := by
  obtain ⟨collected,collecting,planned⟩ := bind_ok.mp planned
  obtain ⟨_,_,planned⟩ := bind_ok.mp planned
  refine ⟨collected,collecting,fun approval mem => ?_,?_⟩
  · obtain ⟨_,_,step⟩ := Result.foldlM_each planned mem
    obtain ⟨replayed,came,_⟩ := bind_ok.mp step
    exact ⟨replayed,came⟩
  · refine Result.foldlM_invariant (P := fun plan => ∀ call ∈ plan.to_execute, ∃ approval ∈ collected.approved,
      replay_approval ctx environment messages approval = .ok (.Execute call)) ?_ (by simp) planned
    intro plan approval mem next backed step
    obtain ⟨replayed,came,step⟩ := bind_ok.mp step
    cases step
    cases replayed with
    | Skipped | Output | Denied => exact backed
    | Execute =>
      intro other listed
      rcases List.mem_append.mp listed with earlier | now
      · exact backed other earlier
      · rw [List.mem_singleton.mp now]
        exact ⟨approval,mem,came⟩

theorem check_signature_ok (configured : ctx.tool_approval_secret = some secret)
    (checked : check_signature ctx approval = .ok ()) : ∃ signature, approval.request.signature = some signature ∧
      verify ctx.primitives secret (signed_fields approval) signature = true := by
  rw [check_signature,configured] at checked
  dsimp only at checked
  split at checked
  · cases checked
  · rename_i signature found
    split_ifs at checked with verified
    exact ⟨signature,found,verified⟩

theorem verify_iff {p : Primitives} {fields : SignedFields} {signature : String} :
    verify p secret fields signature = true ↔
      p.base64url_decode signature = some (p.hmac_sha256 secret (bytes (payload p fields))) := by
  unfold verify
  split <;> simp_all

theorem replay_approval_execute (done : replay_approval ctx environment messages approval = .ok (.Execute call)) :
    approval.tool_call.provider_executed = false ∧ check_signature ctx approval = .ok () ∧
    validate_call (ctx.execution_tools.get approval.tool_call.tool_name)
      (replayed_call (ctx.execution_tools.get approval.tool_call.tool_name) approval.tool_call) = .ok call ∧
    ∃ tool_ctx, approval_tool_context ctx call messages environment = .ok tool_ctx ∧
      ∀ reason, resolve_approval call (ctx.execution_tools.get call.tool_name) ctx.tool_approval
        ⟨messages,environment.tools_context,environment.runtime_context⟩ tool_ctx ≠ .Denied reason := by
  rw [replay_approval] at done
  split_ifs at done with client
  · cases done
  · obtain ⟨_,checked,done⟩ := bind_ok.mp done
    dsimp only at done
    split at done
    · cases done
    · rename_i valid validated
      obtain ⟨tool_ctx,context,done⟩ := bind_ok.mp done
      dsimp only at done
      split at done
      · cases done
      · rename_i undenied
        cases done
        exact ⟨by simpa using client,checked,validated,tool_ctx,context,undenied⟩

end

def shopContext : LoopContext := { LoopContext.plain [("shop",plainTool .null)] none with
  tool_approval_secret := some [7]
  primitives := transparent }

def shopFields : SignedFields := ⟨"approval-1","call-1","shop",.null⟩

/-- A call with its signed request, approved in the last message. -/
def signedShop : List Message :=
  [.Assistant (.Parts [.ToolCall ⟨"call-1","shop",.null,false,none⟩,
    .ToolApprovalRequest ⟨"approval-1","call-1",none,false,some (sign transparent [7] shopFields)⟩]) none,
    .Tool [.ToolApprovalResponse ⟨"approval-1",true,none,false⟩] none]

end Ferrin.GenerateText
