import Ferrin.Error
import Ferrin.Library.Result
import Ferrin.Message.PruneLinks

/-!
The approval responses of the trailing tool message, each with its request and
its tool call, and what pruning a history does to them.
-/
namespace Ferrin.Approval
open Ferrin.Prune List

structure ToolApproval where
  tool_call : ToolCallPart
  request : ToolApprovalRequest
  response : ToolApprovalResponse
  existing_result : Option ToolResultPart
  deriving DecidableEq

structure CollectedApprovals where
  approved : List ToolApproval
  denied : List ToolApproval
  deriving DecidableEq

def CollectedApprovals.default : CollectedApprovals := ⟨[],[]⟩

def AssistantPart.as_tool_call : AssistantPart → Option ToolCallPart
  | .ToolCall part => some part
  | _ => none

def assistant_parts : Message → List AssistantPart
  | .Assistant content _ => content.as_parts
  | _ => []

def tool_content : Message → List ToolPart
  | .Tool content _ => content
  | _ => []

def tool_calls (messages : List Message) : List ToolCallPart :=
  messages.flatMap fun message => (assistant_parts message).filterMap AssistantPart.as_tool_call

def approval_requests (messages : List Message) : List ToolApprovalRequest :=
  messages.flatMap fun message => (assistant_parts message).filterMap AssistantPart.as_tool_approval_request

def tool_results (messages : List Message) : List ToolResultPart :=
  messages.flatMap fun message => (tool_content message).filterMap ToolPart.as_tool_result

/-- The parts that a history holds, by their ids; a later one replaces an earlier one. -/
structure History where
  tool_calls : List (ToolCallId × ToolCallPart)
  requests : List (ApprovalId × ToolApprovalRequest)
  results : List (ToolCallId × ToolResultPart)

def History.of (messages : List Message) : History where
  tool_calls := Assoc.collect ((Approval.tool_calls messages).map fun call => (call.tool_call_id,call))
  requests := Assoc.collect ((approval_requests messages).map fun request => (request.approval_id,request))
  results := Assoc.collect ((tool_results messages).map fun result => (result.tool_call_id,result))

abbrev Decision := Bool × Bool

structure Collecting where
  collected : CollectedApprovals
  approval_decisions : List (ApprovalId × Decision)
  call_decisions : List (ToolCallId × Decision)

def ToolResultOutput.is_execution_denied : ToolResultOutput → Bool
  | .ExecutionDenied _ _ => true
  | _ => false

/-- Whether a result stands already that leaves nothing to do for a response. -/
def is_settled (response : ToolApprovalResponse) (existing : Option ToolResultPart) : Bool :=
  existing.any fun existing => response.approved || !ToolResultOutput.is_execution_denied existing.output

def CollectedApprovals.push (collected : CollectedApprovals) (approval : ToolApproval) : CollectedApprovals :=
  if approval.response.approved then {collected with approved := collected.approved ++ [approval]}
  else {collected with denied := collected.denied ++ [approval]}

def no_request_message : String := "no approval request found for the approval response"
def conflicting_message : String := "conflicting approval decisions for the same tool call"

def collect_response (history : History) (state : Collecting) (response : ToolApprovalResponse) :
    Except Error Collecting :=
  match history.requests.lookup response.approval_id with
  | none => .error (.InvalidToolApproval response.approval_id no_request_message)
  | some request =>
    match history.tool_calls.lookup request.tool_call_id with
    | none => .error (.ToolCallNotFoundForApproval request.tool_call_id response.approval_id)
    | some tool_call =>
      let decision := (response.approved,response.provider_executed)
      let duplicate_approval := state.approval_decisions.lookup response.approval_id
      let duplicate_call := state.call_decisions.lookup tool_call.tool_call_id
      let decided := {state with
        approval_decisions := Assoc.put state.approval_decisions response.approval_id decision
        call_decisions := Assoc.put state.call_decisions tool_call.tool_call_id decision}
      if duplicate_approval.any (· ≠ decision) || duplicate_call.any (· ≠ decision) then
        .error (.InvalidToolApproval response.approval_id conflicting_message)
      else if duplicate_approval.isSome || duplicate_call.isSome then .ok decided
      else
        let existing := history.results.lookup tool_call.tool_call_id
        if is_settled response existing then .ok decided
        else .ok {decided with collected := decided.collected.push ⟨tool_call,request,response,existing⟩}

def trailing_responses (messages : List Message) : List ToolApprovalResponse :=
  match messages.getLast? with
  | some (.Tool last _) => last.filterMap ToolPart.as_tool_approval_response
  | _ => []

def collect_tool_approvals (messages : List Message) : Except Error CollectedApprovals := do
  let responses := trailing_responses messages
  if responses.isEmpty then return .default
  let history := History.of messages
  let state ← responses.foldlM (collect_response history) ⟨.default,[],[]⟩
  return state.collected

/-! ### When a request or a call is unknown -/

def approval_responses (messages : List Message) : List ToolApprovalResponse :=
  messages.flatMap fun message => (tool_content message).filterMap ToolPart.as_tool_approval_response

def ResponsesRequested (messages : List Message) : Prop :=
  ∀ response ∈ approval_responses messages, ∃ request ∈ approval_requests messages,
    request.approval_id = response.approval_id

def RequestsCalled (messages : List Message) : Prop :=
  ∀ request ∈ approval_requests messages, ∃ call ∈ tool_calls messages, call.tool_call_id = request.tool_call_id

theorem mem_trailing_responses {messages : List Message} {response : ToolApprovalResponse}
    (mem : response ∈ trailing_responses messages) : response ∈ approval_responses messages := by
  unfold trailing_responses at mem
  split at mem
  case h_1 last options found =>
    exact List.mem_flatMap.mpr ⟨_,mem_of_getLast? found,mem⟩
  case h_2 => cases mem

theorem collect_response_error {history : History} {state : Collecting} {response : ToolApprovalResponse} {e : Error}
    (failed : collect_response history state response = .error e) :
    (history.requests.lookup response.approval_id = none ∧
        e = .InvalidToolApproval response.approval_id no_request_message) ∨
      (∃ request, history.requests.lookup response.approval_id = some request ∧
        history.tool_calls.lookup request.tool_call_id = none ∧
        e = .ToolCallNotFoundForApproval request.tool_call_id response.approval_id) ∨
      e = .InvalidToolApproval response.approval_id conflicting_message := by
  unfold collect_response at failed
  split at failed
  case h_1 missing =>
    cases failed
    exact .inl ⟨missing,rfl⟩
  case h_2 request found =>
    split at failed
    case h_1 missing =>
      cases failed
      exact .inr (.inl ⟨request,found,missing,rfl⟩)
    case h_2 tool_call called =>
      dsimp only at failed
      split_ifs at failed
      cases failed
      exact .inr (.inr rfl)

theorem foldlM_error {σ α ε : Type} {step : σ → α → Except ε σ} {l : List α} {s : σ} {e : ε}
    (failed : l.foldlM step s = .error e) : ∃ a ∈ l, ∃ before, step before a = .error e := by
  induction l generalizing s with
  | nil => cases failed
  | cons a _ ih =>
    rw [foldlM_cons] at failed
    cases first : step s a with
    | error =>
      rw [first] at failed
      cases failed
      exact ⟨a,mem_cons_self,s,first⟩
    | ok =>
      rw [first] at failed
      obtain ⟨b,mem,before,here⟩ := ih failed
      exact ⟨b,mem_cons_of_mem a mem,before,here⟩

theorem collect_error {messages : List Message} {e : Error} (failed : collect_tool_approvals messages = .error e) :
    ∃ response ∈ approval_responses messages, ∃ state, collect_response (History.of messages) state response = .error e := by
  unfold collect_tool_approvals at failed
  dsimp only at failed
  split_ifs at failed
  · cases failed
  · cases ran : (trailing_responses messages).foldlM (collect_response (History.of messages)) ⟨.default,[],[]⟩ with
    | error =>
      rw [ran] at failed
      cases failed
      obtain ⟨response,mem,state,here⟩ := foldlM_error ran
      exact ⟨response,mem_trailing_responses mem,state,here⟩
    | ok =>
      rw [ran] at failed
      cases failed

theorem no_unknown_request {messages : List Message} (requested : ResponsesRequested messages) (id : ApprovalId) :
    collect_tool_approvals messages ≠ .error (.InvalidToolApproval id no_request_message) := by
  intro failed
  obtain ⟨response,mem,_,here⟩ := collect_error failed
  rcases collect_response_error here with ⟨missing,_⟩ | ⟨_,_,_,other⟩ | other
  · obtain ⟨request,present,same⟩ := requested response mem
    obtain ⟨_,lookup⟩ := Assoc.lookup_collect_of_mem
      (mem_map_of_mem (f := fun request => (request.approval_id,request)) present)
    rw [same] at lookup
    exact absurd (lookup.symm.trans missing) (by simp)
  · cases other
  · simp [no_request_message,conflicting_message] at other

theorem no_unknown_call {messages : List Message} (called : RequestsCalled messages) (id : ToolCallId)
    (approval_id : ApprovalId) :
    collect_tool_approvals messages ≠ .error (.ToolCallNotFoundForApproval id approval_id) := by
  intro failed
  obtain ⟨_,_,_,here⟩ := collect_error failed
  rcases collect_response_error here with ⟨_,other⟩ | ⟨_,found,missing,_⟩ | other
  · cases other
  · obtain ⟨present,inside,entry⟩ := List.mem_map.mp (Assoc.mem_of_lookup_collect found)
    obtain ⟨_,rfl⟩ := Prod.mk.inj entry
    obtain ⟨call,listed,same⟩ := called present inside
    obtain ⟨_,lookup⟩ := Assoc.lookup_collect_of_mem
      (mem_map_of_mem (f := fun call => (call.tool_call_id,call)) listed)
    rw [same] at lookup
    exact absurd (lookup.symm.trans missing) (by simp)
  · cases other

end Ferrin.Approval
