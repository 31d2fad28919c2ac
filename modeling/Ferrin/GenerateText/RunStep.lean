import Ferrin.GenerateText.Ledger

/-!
The ledger of the non-streaming step.
-/
namespace Ferrin.GenerateText
open Ferrin.Approval List StepApprovals StepContent ParsedToolCall
open Result (bind_ok)

/-! ### Converted content -/

variable {calls : List ParsedToolCall}

section
variable {parse_ctx : ParseContext} {tools : ToolSet}

theorem provider_tool_result_hosted (calls : List ParsedToolCall) (result : ProviderToolResult) (shown : ToolSet) :
    tool_part shown (provider_tool_result tools calls result) = [] ∧
      (provider_tool_result tools calls result).asToolCall = none ∧
      (provider_tool_result tools calls result).asText = none ∧
      (provider_tool_result tools calls result).asReasoning = none := by
  unfold provider_tool_result
  dsimp only
  split_ifs <;> exact ⟨rfl,rfl,rfl,rfl⟩

theorem convert_part_tool_part {part : Content} {converted : StepContent}
    (shown : ToolSet) (done : convert_part parse_ctx tools calls part = some converted) :
    tool_part shown converted = [] := by
  cases part <;> simp only [convert_part,Option.map_eq_some_iff,Option.some.injEq] at done
  case ToolResult result => exact done ▸ (provider_tool_result_hosted calls result shown).1
  case ToolApprovalRequest =>
    obtain ⟨_,-,rfl⟩ := done
    rfl
  all_goals subst done; rfl

theorem convert_from_tool_parts (shown : ToolSet) (content : List Content) :
    ∀ calls, (convert_from parse_ctx tools calls content).flatMap (tool_part shown) = [] := by
  induction content with
  | nil => intro calls; rfl
  | cons part _ ih =>
    intro calls
    rw [convert_from,flatMap_append,ih]
    cases done : convert_part parse_ctx tools calls part with
    | none => rfl
    | some => simp [convert_part_tool_part shown done]

theorem convert_from_parsed {call : ParsedToolCall} (content : List Content) : ∀ calls,
    call ∈ tool_calls (convert_from parse_ctx tools calls content) →
      ∃ source, .ToolCall source ∈ content ∧ call = parse_tool_call parse_ctx source := by
  induction content with
  | nil => intro calls mem; cases mem
  | cons part _ ih =>
    intro calls mem
    unfold tool_calls at mem
    rw [convert_from,filterMap_append] at mem
    rcases List.mem_append.mp mem with here | later
    · cases part <;> simp only [convert_part] at here
      case ToolCall source => exact ⟨source,mem_cons_self,by simpa [asToolCall] using here⟩
      case ToolResult result => simp [(@provider_tool_result_hosted tools calls result []).2.1] at here
      case ToolApprovalRequest id call_id _ => cases findCall calls call_id <;> simp [asToolCall] at here
      all_goals simp [asToolCall] at here
    · obtain ⟨source,mem,own⟩ := ih _ later
      exact ⟨source,mem_cons_of_mem _ mem,own⟩

theorem convert_from_invalid (content : List Content) : ∀ calls,
    ∀ call ∈ tool_calls (convert_from parse_ctx tools calls content), call.invalid = true → call.dynamic = true := by
  intro calls call mem
  obtain ⟨_,-,rfl⟩ := convert_from_parsed content calls mem
  exact invalid_dynamic

end

section
variable {ctx : LoopContext} {inputs : StepInputs}

theorem resolve_from_ok (calls : List ParsedToolCall) : ∀ (start approvals : StepApprovals),
    calls.foldlM (fun approvals call => do
      return StepApprovals.record approvals call (← decision ctx inputs call)) start = .ok approvals →
    (∀ call ∈ calls, ∃ approval, decision ctx inputs call = .ok approval) ∧
    approvals.requests = start.requests ++ calls.filterMap (fun call => (approval_of ctx inputs call).map (·.request)) ∧
    approvals.responses = start.responses ++ calls.filterMap (fun call => (approval_of ctx inputs call).bind (·.response)) ∧
    ∀ id, id ∈ approvals.blocked ↔
      id ∈ start.blocked ∨ ∃ call ∈ calls, call.tool_call_id = id ∧ held ctx inputs call = true := by
  induction calls with
  | nil =>
    intro start approvals done
    cases done
    simp
  | cons _ _ ih =>
    intro start approvals done
    rw [foldlM_cons] at done
    obtain ⟨_,first,done⟩ := bind_ok.mp done
    obtain ⟨approval,decided,first⟩ := bind_ok.mp first
    cases first
    obtain ⟨resolved,requests,responses,blocked⟩ := ih _ _ done
    have known := approval_of_ok decided
    refine ⟨?_,?_,?_,fun id => ?_⟩
    · intro other mem
      rcases List.mem_cons.mp mem with rfl | later
      · exact ⟨approval,decided⟩
      · exact resolved other later
    · rw [requests]
      cases approval <;> simp [record,known]
    · rw [responses]
      cases approval with
      | none => simp [record,known]
      | some approval => cases answer : approval.response <;> simp [record,known,answer]
    · rw [blocked]
      cases approval with
      | none => simp [record,held,known]
      | some approval =>
        cases isBlocked : approval.blocked
        · simp [record,held,known,isBlocked]
        · simp only [record,isBlocked,if_true,Finset.mem_insert,mem_cons,exists_eq_or_imp,held,known,
            Option.any_some,and_true]
          rw [eq_comm (a := id)]
          tauto

theorem resolve_approvals_ok {approvals : StepApprovals}
    (done : resolve_approvals ctx inputs.messages inputs.environment calls = .ok approvals) :
    (∀ call ∈ calls, ∃ approval, decision ctx inputs call = .ok approval) ∧
    approvals.requests = calls.filterMap (fun call => (approval_of ctx inputs call).map (·.request)) ∧
    approvals.responses = calls.filterMap (fun call => (approval_of ctx inputs call).bind (·.response)) ∧
    ∀ id, id ∈ approvals.blocked ↔ ∃ call ∈ calls, call.tool_call_id = id ∧ held ctx inputs call = true := by
  have whole := resolve_from_ok calls _ _ done
  simpa using whole

theorem responses_denied (calls : List ParsedToolCall) :
    ((calls.filterMap fun call => (approval_of ctx inputs call).bind (·.response)).filter (!·.approved)).length =
      calls.countP (denied ctx inputs) := by
  induction calls with
  | nil => rfl
  | cons call _ ih =>
    rw [countP_cons,← ih]
    cases found : approval_of ctx inputs call with
    | none => simp [denied,found]
    | some approval =>
      cases answer : approval.response with
      | none => simp [denied,found,answer]
      | some response => cases approved : response.approved <;> simp [denied,found,answer,approved]

theorem tasks_calls (calls : List ParsedToolCall) :
    (tasks ctx calls).map (·.1) = calls.filter fun call => (executable ctx call).isSome := by
  unfold tasks
  induction calls with
  | nil => rfl
  | cons call _ ih =>
    cases found : executable ctx call with
    | none => simpa [found] using ih
    | some => simpa [found] using ih

theorem mem_tasks {task : ParsedToolCall × Tool} (mem : task ∈ tasks ctx calls) :
    executable ctx task.1 = some task.2 := by
  obtain ⟨_,-,found⟩ := List.mem_filterMap.mp mem
  obtain ⟨_,exists_,rfl⟩ := Option.map_eq_some_iff.mp found
  exact exists_

theorem to_execute_ready {blocked : Finset ToolCallId} (distinct : (calls.map (·.tool_call_id)).Nodup)
    (holds : ∀ id, id ∈ blocked ↔ ∃ call ∈ calls, call.tool_call_id = id ∧ held ctx inputs call = true) :
    (tasks ctx (to_execute calls blocked)).map (·.1) = calls.filter (ready ctx inputs) := by
  rw [tasks_calls]
  unfold to_execute
  rw [filter_filter]
  refine filter_congr fun call mem => ?_
  have free : (decide (call.tool_call_id ∉ blocked)) = !held ctx inputs call := by
    cases isHeld : held ctx inputs call with
    | true => simpa using (holds _).mpr ⟨call,mem,rfl,isHeld⟩
    | false =>
      refine decide_eq_true fun inside => ?_
      obtain ⟨_,present,same,otherHeld⟩ := (holds _).mp inside
      obtain rfl := inj_on_of_nodup_map distinct present mem same
      rw [isHeld] at otherHeld
      cases otherHeld
  unfold ready
  rw [free]
  cases call.provider_executed <;> cases call.invalid <;> cases held ctx inputs call <;> simp

def Leaves (ctx : LoopContext) (inputs : StepInputs) (call : ParsedToolCall) (output : StepContent) : Prop :=
  ∃ content, outcome ctx inputs call = [content] ∧ (∀ tools, tool_part tools content = tool_part tools output) ∧
    output.asToolCall = none ∧ output.asText = none ∧ output.asReasoning = none

variable {outputs : List StepContent}

theorem execute_tools_ok {duration_ms : ToolCallId → Nat}
    (done : execute_tools ctx inputs.messages inputs.environment duration_ms calls = .ok outputs) :
    List.Forall₂ (Leaves ctx inputs) ((tasks ctx calls).map (·.1)) outputs := by
  rw [forall₂_map_left_iff]
  have each := Result.mapM_ok.mp done
  have present : ∀ task ∈ tasks ctx calls, executable ctx task.1 = some task.2 := fun task => mem_tasks
  clear done
  generalize tasks ctx calls = list at each present
  induction each with
  | nil => exact .nil
  | @cons task output rest outputs first others ih =>
    refine .cons ?_ (ih fun other mem => present other (mem_cons_of_mem task mem))
    obtain ⟨content,left,same⟩ := tool_task_ok (present task mem_cons_self) first
    obtain ⟨_,-,ran⟩ := bind_ok.mp first
    exact ⟨content,left,same,(run_tool_call_ok ran).2.2⟩

theorem leaves_calls
    (each : List.Forall₂ (Leaves ctx inputs) calls outputs) : outputs.filterMap (·.asToolCall) = [] := by
  refine List.filterMap_eq_nil_iff.mpr fun output member => ?_
  obtain ⟨_,-,_,-,-,noCall,-⟩ := Result.each_right each member
  exact noCall

theorem outputs_tool_parts {tools : ToolSet} (each : List.Forall₂ (Leaves ctx inputs) calls outputs) :
    outputs.flatMap (tool_part tools) =
      calls.flatMap fun call => (outcome ctx inputs call).flatMap (tool_part tools) := by
  induction each with
  | nil => rfl
  | cons first _ ih =>
    obtain ⟨_,left,same,-⟩ := first
    rw [flatMap_cons,flatMap_cons,ih,left,flatMap_singleton,same]

theorem executed_tool_parts {t : ToolSet} {allowed : Bool} {executed : List ParsedToolCall}
    (ran : executed = if allowed then calls.filter (ready ctx inputs) else [])
    (each : List.Forall₂ (Leaves ctx inputs) executed outputs) : outputs.flatMap (tool_part t) =
      calls.flatMap fun call =>
        (if allowed && ready ctx inputs call then outcome ctx inputs call else []).flatMap (tool_part t) := by
  rw [outputs_tool_parts each,ran]
  clear * -
  cases allowed with
  | false => simp
  | true =>
    induction calls with
    | nil => rfl
    | cons call => cases isReady : ready ctx inputs call <;> simp_all

end

section
variable {ctx : LoopContext} {inputs : StepInputs} {duration_ms : ToolCallId → Nat} {result : GenerateResult}
variable {pending : Finset ToolCallId} {r : StepResult}

def stepCalls (ctx : LoopContext) (inputs : StepInputs) (content : List Content) : List ParsedToolCall :=
  tool_calls (convert_from inputs.parse ctx.execution_tools [] content)

theorem invalid_tool_errors_eq
    (dynamic : ∀ call ∈ calls, call.invalid = true → call.dynamic = true) : invalid_tool_errors calls =
      calls.flatMap fun call => if fails call then [.ToolError (invalid_tool_error call)] else [] := by
  unfold invalid_tool_errors
  induction calls with
  | nil => rfl
  | cons call _ ih =>
    have later := ih fun other mem => dynamic other (mem_cons_of_mem call mem)
    have here := dynamic call mem_cons_self
    rw [flatMap_cons,← later]
    unfold fails
    cases isInvalid : call.invalid with
    | false => simp [isInvalid]
    | true => cases hosted : call.provider_executed <;> simp [isInvalid,here isInvalid,hosted]

/-- The calls that are handed to `execute_tools`. -/
def handed (finish_reason : FinishReason) (calls : List ParsedToolCall) (blocked : Finset ToolCallId) :
    List ParsedToolCall :=
  if is_tool_execution_allowed finish_reason then to_execute calls blocked else []

/-- A step that succeeds resolved every approval and ran its tools, and this is what it leaves. -/
theorem run_step_ok (done : run_step ctx inputs duration_ms result pending = .ok r) :
    ∃ approvals outputs, check_tool_choice inputs.parse.tool_choice (stepCalls ctx inputs result.content) = .ok () ∧
      resolve_approvals ctx inputs.messages inputs.environment (stepCalls ctx inputs result.content) = .ok approvals ∧
      execute_tools ctx inputs.messages inputs.environment duration_ms
        (handed result.finish_reason (stepCalls ctx inputs result.content) approvals.blocked) = .ok outputs ∧
      r.content = convert_from inputs.parse ctx.execution_tools [] result.content ++
        approvals.requests.map .ToolApprovalRequest ++ approvals.responses.map .ToolApprovalResponse ++
        (invalid_tool_errors (stepCalls ctx inputs result.content) ++ outputs) ∧
      r.messages = to_response_messages ctx.tools r.content ∧ r.finish_reason = result.finish_reason ∧
      r.executed = (tasks ctx (handed result.finish_reason (stepCalls ctx inputs result.content)
        approvals.blocked)).map (·.1) ∧
      r.pending_deferred = track_deferred (stepCalls ctx inputs result.content) (provider_result_ids result.content)
        ctx.execution_tools pending ∧
      r.state = ⟨(client_calls (stepCalls ctx inputs result.content)).length,
        (invalid_tool_errors (stepCalls ctx inputs result.content) ++ outputs).length,
        (approvals.responses.filter (!·.approved)).length,r.pending_deferred.card⟩ := by
  unfold run_step convert_content at done
  dsimp only at done
  obtain ⟨_,chosen,done⟩ := bind_ok.mp done
  obtain ⟨approvals,resolving,done⟩ := bind_ok.mp done
  obtain ⟨outputs,executing,done⟩ := bind_ok.mp done
  cases done
  exact ⟨approvals,outputs,chosen,resolving,executing,rfl,rfl,rfl,rfl,rfl,rfl⟩

theorem run_step_ledger (done : run_step ctx inputs duration_ms result pending = .ok r)
    (distinct : ((stepCalls ctx inputs result.content).map (·.tool_call_id)).Nodup) :
    Ledger ctx inputs result.finish_reason (stepCalls ctx inputs result.content) r := by
  obtain ⟨approvals,_,chosen,resolving,executing,content,messages,finish,executed,-,state⟩ := run_step_ok done
  have dynamic := @convert_from_invalid inputs.parse ctx.execution_tools result.content []
  have silent := fun shown => @convert_from_tool_parts inputs.parse ctx.execution_tools shown
    result.content []
  have isStep : tool_calls (convert_from inputs.parse ctx.execution_tools [] result.content) =
      stepCalls ctx inputs result.content := rfl
  rw [isStep] at dynamic
  generalize stepCalls ctx inputs result.content = calls at *
  obtain ⟨resolved,requests,responses,blocked⟩ := resolve_approvals_ok resolving
  have each := execute_tools_ok executing
  rw [← executed] at each
  have ran : r.executed = if is_tool_execution_allowed result.finish_reason then calls.filter (ready ctx inputs)
      else [] := by
    rw [executed]
    unfold handed
    split_ifs
    · exact to_execute_ready distinct blocked
    · rfl
  have invalid := invalid_tool_errors_eq dynamic
  have count : (invalid_tool_errors calls).length = calls.countP fails := by
    rw [invalid]
    clear * -
    induction calls with
    | nil => rfl
    | cons call _ ih => cases failing : fails call <;> simp [failing,← ih]
  refine {
    listed := ?_
    chosen := chosen
    resolved := resolved
    executed := ran
    ran := ?_
    parts := ?_
    client_tool_calls := ?_
    client_tool_outputs := ?_
    denied_approvals := ?_
    messages := messages
    finish_reason := finish }
  · have late := leaves_calls each
    have failing : (invalid_tool_errors calls).filterMap (·.asToolCall) = [] := by
      simp [invalid_tool_errors,asToolCall]
    rw [content]
    unfold tool_calls
    rw [filterMap_append,filterMap_append,filterMap_append,filterMap_append,late,failing]
    unfold tool_calls at isStep
    rw [isStep]
    simp [asToolCall]
  · intro call mem
    obtain ⟨_,-,left,only,-⟩ := Result.each_left each mem
    exact ⟨left,only⟩
  · intro id
    have asked : (approvals.requests.map StepContent.ToolApprovalRequest).flatMap (tool_part ctx.tools) = [] := by
      simp [tool_part]
    have answered : (approvals.responses.map StepContent.ToolApprovalResponse).flatMap (tool_part ctx.tools) =
        calls.flatMap fun call => (((approval_of ctx inputs call).bind (·.response)).toList.map
          StepContent.ToolApprovalResponse).flatMap (tool_part ctx.tools) := by
      rw [responses]
      clear * -
      induction calls with
      | nil => rfl
      | cons call _ ih =>
        rw [filterMap_cons,flatMap_cons,← ih]
        cases (approval_of ctx inputs call).bind (·.response) <;> simp
    have late := executed_tool_parts (t := ctx.tools) ran each
    rw [content,flatMap_append,flatMap_append,flatMap_append,flatMap_append,silent,asked,answered,
      invalid,flatMap_assoc,late,nil_append,nil_append,filter_append,filter_append]
    have own : ∀ call, ∀ entry ∈ verdict ctx inputs call (is_tool_execution_allowed result.finish_reason),
        entry.1 = call.tool_call_id := fun call entry mem => verdict_own mem
    rw [StableSort.filter_flatMap tool_call_id (fun call entry mem => own call entry (by
        unfold verdict early
        rw [flatMap_append]
        exact mem_append_left _ (mem_append_left _ mem))),
      StableSort.filter_flatMap tool_call_id (fun call entry mem => own call entry (by
        unfold verdict early
        rw [flatMap_append]
        exact mem_append_left _ (mem_append_right _ mem))),
      StableSort.filter_flatMap tool_call_id (fun call entry mem => own call entry (mem_append_right _ mem))]
    rcases StableSort.filter_key distinct id with none_ | ⟨_,-,-,only⟩
    · simp [none_]
    · simp [only,verdict,early]
  · rw [state,countP_eq_length_filter]
    rfl
  · rw [state,length_append,count,each.length_eq]
  · rw [state,responses]
    exact responses_denied calls

end

end Ferrin.GenerateText
