import Ferrin.GenerateText.Run

/-!
The ledger of a step: what each tool call of the step comes to. A call of the
client fails at once when it is invalid, is denied, runs, or stays open. Both
loops keep the same ledger (`Ledger`), each in its own order.
-/
namespace Ferrin.GenerateText
open Ferrin.Approval List Option

section
variable (ctx : LoopContext) (inputs : StepInputs) (call : ParsedToolCall)

/-! ### What a call comes to -/

def decision : Except Error (Option CallApproval) := resolve_call_approval ctx inputs.messages inputs.environment call

def approval_of : Option CallApproval :=
  match decision ctx inputs call with
  | .ok approval => approval
  | .error _ => none

def denied : Bool := (approval_of ctx inputs call).any fun approval => approval.response.any (!·.approved)

def held : Bool := (approval_of ctx inputs call).any (·.blocked)

def fails : Bool := call.invalid && !call.provider_executed

/-- A call that the client runs, when the finish reason lets it. -/
def ready : Bool :=
  !call.provider_executed && !call.invalid && !held ctx inputs call && (executable ctx call).isSome

def early : List StepContent :=
  ((approval_of ctx inputs call).bind (·.response)).toList.map .ToolApprovalResponse ++
    if fails call then [.ToolError (invalid_tool_error call)] else []

def outcome : List StepContent :=
  match executable ctx call with
  | none => []
  | some tool =>
    match tool_task inputs.messages inputs.environment (fun _ => 0) call tool with
    | .ok content => [content]
    | .error _ => []

def verdict (allowed : Bool) : List (ToolCallId × ToolPart) :=
  (early ctx inputs call).flatMap (tool_part ctx.tools) ++
    (if allowed && ready ctx inputs call then outcome ctx inputs call else []).flatMap (tool_part ctx.tools)

/-- A call of the client that nothing answers: it awaits the user, or may not or cannot run. -/
def waits (allowed : Bool) : Bool :=
  !call.provider_executed && !call.invalid && !denied ctx inputs call && !(allowed && ready ctx inputs call)

end

def settles (id : ToolCallId) : StepContent → Bool
  | .ToolResult result => !result.provider_executed && result.tool_call_id = id
  | .ToolError error => !error.provider_executed && error.tool_call_id = id
  | .ToolApprovalResponse response => !response.approved && response.tool_call.tool_call_id = id
  | .ToolOutputDenied denied => !denied.provider_executed && denied.tool_call_id = id
  | _ => false

def Settled (content : List StepContent) (call : ParsedToolCall) : Prop :=
  ∃ part ∈ content, settles call.tool_call_id part = true

structure Ledger (ctx : LoopContext) (inputs : StepInputs) (finish_reason : FinishReason)
    (calls : List ParsedToolCall) (r : StepResult) : Prop where
  listed : tool_calls r.content = calls
  chosen : check_tool_choice inputs.parse.tool_choice calls = .ok ()
  resolved : ∀ call ∈ calls, ∃ approval, decision ctx inputs call = .ok approval
  executed : r.executed = if is_tool_execution_allowed finish_reason then calls.filter (ready ctx inputs) else []
  ran : ∀ call ∈ r.executed, ∃ content, outcome ctx inputs call = [content]
  parts : ∀ id, (r.content.flatMap (tool_part ctx.tools)).filter (·.1 = id) =
    (calls.filter (·.tool_call_id = id)).flatMap (verdict ctx inputs · (is_tool_execution_allowed finish_reason))
  client_tool_calls : r.state.client_tool_calls = calls.countP (!·.provider_executed)
  client_tool_outputs : r.state.client_tool_outputs = calls.countP fails + r.executed.length
  denied_approvals : r.state.denied_approvals = calls.countP (denied ctx inputs)
  messages : r.messages = to_response_messages ctx.tools r.content
  finish_reason : r.finish_reason = finish_reason

section
variable {ctx : LoopContext} {inputs : StepInputs} {call : ParsedToolCall} {approval : CallApproval}

theorem call_approval_some {status : ApprovalStatus} (recorded : call_approval ctx call status = some approval) :
    approval.request.tool_call = call ∧
    ((∃ response, approval.response = some response ∧ response.tool_call = call ∧
      response.approved = !approval.blocked) ∨ (approval.response = none ∧ approval.blocked = true)) := by
  cases status with
  | NotApplicable => cases recorded
  | Approved =>
    obtain rfl := some.inj recorded
    exact ⟨rfl,.inl ⟨_,rfl,rfl,rfl⟩⟩
  | Denied =>
    obtain rfl := some.inj recorded
    exact ⟨rfl,.inl ⟨_,rfl,rfl,rfl⟩⟩
  | UserApproval =>
    obtain rfl := some.inj recorded
    exact ⟨rfl,.inr ⟨rfl,rfl⟩⟩

theorem decision_some (resolved : decision ctx inputs call = .ok (some approval)) : call.invalid = false ∧
    ∃ status, call_approval ctx call status = some approval := by
  unfold decision resolve_call_approval at resolved
  split_ifs at resolved with invalid
  · cases resolved
  · obtain ⟨_,-,resolved⟩ := Result.bind_ok.mp resolved
    exact ⟨by simpa using invalid,_,Except.ok.inj resolved⟩

theorem approval_of_ok {result : Option CallApproval} (resolved : decision ctx inputs call = .ok result) :
    approval_of ctx inputs call = result := by
  unfold approval_of
  rw [resolved]

theorem approval_of_some (found : approval_of ctx inputs call = some approval) :
    decision ctx inputs call = .ok (some approval) := by
  unfold approval_of at found
  split at found
  · next result resolved => rw [resolved,found]
  · cases found

theorem approval_of_invalid (invalid : call.invalid = true) : approval_of ctx inputs call = none := by
  cases found : approval_of ctx inputs call with
  | none => rfl
  | some =>
    have valid := (decision_some (approval_of_some found)).1
    rw [invalid] at valid
    cases valid

theorem denied_held (isDenied : denied ctx inputs call = true) :
    call.invalid = false ∧ held ctx inputs call = true := by
  unfold denied at isDenied
  obtain ⟨_,found,isDenied⟩ := (any_eq_true _ _).mp isDenied
  obtain ⟨_,answer,against⟩ := (any_eq_true _ _).mp isDenied
  obtain ⟨valid,_,recorded⟩ := decision_some (approval_of_some found)
  refine ⟨valid,?_⟩
  unfold held
  rw [found]
  rcases (call_approval_some recorded).2 with ⟨_,answer',-,opposite⟩ | ⟨answer',blocked⟩
  · obtain rfl := some.inj (answer.symm.trans answer')
    simpa [opposite] using against
  · exact blocked

variable {tools : ToolSet} {part content : StepContent} {entry : ToolCallId × ToolPart} {tool : Tool}
  {tool_ctx : ToolContext} {duration_ms : Nat}

theorem tool_part_call
    (mem : entry ∈ tool_part tools part) (result : ToolResultPart) (isResult : entry.2 = .ToolResult result) :
    result.tool_call_id = entry.1 := by
  cases part <;> simp only [tool_part,not_mem_nil] at mem
  all_goals split_ifs at mem <;> simp at mem
  · subst mem
    cases isResult
    rfl
  · subst mem
    cases isResult
    rfl
  · subst mem
    cases isResult
  · rcases mem with rfl | rfl
    · cases isResult
    · cases isResult
      rfl
  · subst mem
    cases isResult
    rfl

theorem settles_iff {id : ToolCallId} :
    settles id part = true ↔ ∃ result, (id,.ToolResult result) ∈ tool_part tools part := by
  cases part <;> simp only [settles,tool_part,not_mem_nil,exists_false,Bool.false_eq_true]
  all_goals split_ifs with condition <;> simp_all
  all_goals exact eq_comm

theorem early_own
    (mem : entry ∈ (early ctx inputs call).flatMap (tool_part tools)) : entry.1 = call.tool_call_id := by
  unfold early at mem
  rw [flatMap_append,mem_append] at mem
  rcases mem with answered | failed
  · cases found : approval_of ctx inputs call with
    | none => simp [found] at answered
    | some =>
      obtain ⟨-,_,recorded⟩ := decision_some (approval_of_some found)
      rcases (call_approval_some recorded).2 with ⟨_,answer,same,-⟩ | ⟨answer,-⟩
      · simp only [found,bind_some,answer,toList_some,map_cons,map_nil,flatMap_cons,
          flatMap_nil,append_nil,tool_part,same] at answered
        split_ifs at answered <;> simp at answered
        · rw [answered]
        · rcases answered with rfl | rfl <;> rfl
      · simp [found,answer] at answered
  · split_ifs at failed
    · simp [tool_part,invalid_tool_error] at failed
      rw [failed]
    · simp at failed

theorem run_tool_call_ok (ran : run_tool_call call tool tool_ctx duration_ms = .ok content) :
    settles call.tool_call_id content = true ∧ (∀ tools, ∃ part, tool_part tools content = [(call.tool_call_id,part)]) ∧
    content.asToolCall = none ∧ content.asText = none ∧ content.asReasoning = none := by
  unfold run_tool_call at ran
  dsimp only at ran
  split at ran
  · cases ran
    exact ⟨by simp [settles],fun tools => ⟨_,rfl⟩,rfl,rfl,rfl⟩
  · cases ran
  · cases ran
    exact ⟨by simp [settles],fun tools => ⟨_,rfl⟩,rfl,rfl,rfl⟩

theorem run_tool_call_duration (other : Nat) (ran : run_tool_call call tool tool_ctx duration_ms = .ok content) :
    ∃ content', run_tool_call call tool tool_ctx other = .ok content' ∧
      ∀ tools, tool_part tools content' = tool_part tools content := by
  unfold run_tool_call at ran ⊢
  dsimp only at ran ⊢
  split at ran
  · cases ran
    exact ⟨_,rfl,fun tools => rfl⟩
  · cases ran
  · cases ran
    exact ⟨_,rfl,fun tools => rfl⟩

theorem tool_task_ok {duration_ms : ToolCallId → Nat} (found : executable ctx call = some tool)
    (ran : tool_task inputs.messages inputs.environment duration_ms call tool = .ok content) :
    ∃ content', outcome ctx inputs call = [content'] ∧ ∀ tools, tool_part tools content' = tool_part tools content := by
  obtain ⟨tool_ctx,context,ran⟩ := Result.bind_ok.mp ran
  obtain ⟨content',again,same⟩ := run_tool_call_duration 0 ran
  refine ⟨content',?_,same⟩
  have task : tool_task inputs.messages inputs.environment (fun _ => 0) call tool = .ok content' :=
    Result.bind_ok.mpr ⟨tool_ctx,context,again⟩
  unfold outcome
  rw [found]
  dsimp only
  rw [task]

theorem outcome_some (ran : outcome ctx inputs call = [content]) :
    settles call.tool_call_id content = true ∧ ∀ tools, ∃ part, tool_part tools content = [(call.tool_call_id,part)] := by
  unfold outcome at ran
  split at ran
  · cases ran
  · split at ran
    · next result task =>
      obtain rfl := (List.cons.inj ran).1
      obtain ⟨_,-,task⟩ := Result.bind_ok.mp task
      have left := run_tool_call_ok task
      exact ⟨left.1,left.2.1⟩
    · cases ran

theorem outcome_short (tools : ToolSet) : ((outcome ctx inputs call).flatMap (tool_part tools)).length ≤ 1 := by
  have cases_ : outcome ctx inputs call = [] ∨ ∃ content, outcome ctx inputs call = [content] := by
    unfold outcome
    split
    · exact .inl rfl
    · split
      · exact .inr ⟨_,rfl⟩
      · exact .inl rfl
  rcases cases_ with none | ⟨_,ran⟩
  · simp [none]
  · obtain ⟨_,only⟩ := (outcome_some ran).2 tools
    simp [ran,only]

theorem outcome_own
    (mem : entry ∈ (outcome ctx inputs call).flatMap (tool_part tools)) : entry.1 = call.tool_call_id := by
  obtain ⟨content,here,mem⟩ := List.mem_flatMap.mp mem
  have only : outcome ctx inputs call = [content] := by
    unfold outcome at here ⊢
    split at here
    · cases here
    · split at here <;> simp_all
  obtain ⟨_,parts⟩ := (outcome_some only).2 tools
  rw [parts] at mem
  exact congrArg Prod.fst (List.mem_singleton.mp mem)

theorem verdict_own {allowed : Bool}
    (mem : entry ∈ verdict ctx inputs call allowed) : entry.1 = call.tool_call_id := by
  unfold verdict at mem
  rcases List.mem_append.mp mem with before | after
  · exact early_own before
  · split_ifs at after
    · exact outcome_own after
    · simp at after

end

end Ferrin.GenerateText
