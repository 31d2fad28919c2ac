import Ferrin.StreamText.Retries
import Ferrin.GenerateText.Continuation

/-!
The ledger of the streamed step: whatever the attempts before it and whichever
way its tools take turns, it leaves what the non-streaming step leaves.
-/
namespace Ferrin.StreamText
open Ferrin.GenerateText Ferrin.Approval List
open Result (bind_ok exists_ok)

/-! ### Running the tools -/

variable {running : List Task} {contents : List StepContent} {content : StepContent}

theorem Interleaves.finals (interleaves : Interleaves running contents)
    (final : ∀ task ∈ running, ∀ content, task.outcome = .ok content → isPreliminary content = false) :
    ∃ finals, (contents.filter (!isPreliminary ·)).Perm finals ∧
      running.map (·.outcome) = finals.map Except.ok := by
  induction interleaves with
  | done => exact ⟨[],.refl [],rfl⟩
  | @progress before after task value values contents next rest ih =>
    obtain ⟨finals,perm,same⟩ := ih fun other mem content finished => by
      rcases List.mem_append.mp mem with early | late
      · exact final other (mem_append_left _ early) content finished
      · rcases List.mem_cons.mp late with rfl | late
        · exact final task (by simp) content finished
        · exact final other (by simp [late]) content finished
    refine ⟨finals,?_,?_⟩
    · simpa [isPreliminary,preliminary_result] using perm
    · simpa using same
  | @joined before after task content contents drained finished rest ih =>
    obtain ⟨_,perm,same⟩ := ih fun other mem =>
      final other (by rcases List.mem_append.mp mem with _ | _ <;> simp [*])
    rw [map_append] at same
    obtain ⟨first,last,rfl,sameFirst,sameLast⟩ := List.append_eq_map_iff.mp same
    refine ⟨first ++ content :: last,?_,?_⟩
    · have shown : isPreliminary content = false := final task (by simp) content finished
      rw [filter_cons_of_pos (by simp [shown])]
      exact (perm.cons content).trans List.perm_middle.symm
    · simp [sameFirst,sameLast,finished]

theorem run_tool_call_final {call : ParsedToolCall} {tool : Tool} {tool_ctx : ToolContext} {duration_ms : Nat}
    (ran : run_tool_call call tool tool_ctx duration_ms = .ok content) :
    isPreliminary content = false ∧ (content_event content).isSome := by
  unfold run_tool_call at ran
  dsimp only at ran
  split at ran <;> cases ran <;> exact ⟨rfl,rfl⟩

section
variable {ctx : LoopContext} {inputs : StepInputs} {stage : StageContext}

def spawned (ctx : LoopContext) (inputs : StepInputs) (stage : StageContext) (calls : List ParsedToolCall) : List Task :=
  (tasks ctx calls).map fun (call,tool) => spawn inputs stage.duration_ms call tool

variable {calls : List ParsedToolCall} {finals : List StepContent} {streams : List (List StreamPart)}
  {pending_deferred : Finset ToolCallId} {result : ModelCallEnd} {r : StepResult}

theorem spawned_outcome {task : Task} (mem : task ∈ spawned ctx inputs stage calls)
    (finished : task.outcome = .ok content) :
    isPreliminary content = false ∧ (content_event content).isSome := by
  obtain ⟨⟨_,_⟩,-,rfl⟩ := List.mem_map.mp mem
  obtain ⟨_,-,ran⟩ := bind_ok.mp finished
  exact run_tool_call_final ran

theorem Interleaves.shown (interleaves : Interleaves running contents)
    (shows : ∀ task ∈ running, ∀ content, task.outcome = .ok content → (content_event content).isSome) :
    ∀ content ∈ contents, (content_event content).isSome := by
  induction interleaves with
  | done => simp
  | @progress before after task value values contents next rest ih =>
    intro content mem
    rcases List.mem_cons.mp mem with rfl | later
    · rfl
    · refine ih (fun other mem final finished => ?_) content later
      rcases List.mem_append.mp mem with early | late
      · exact shows other (mem_append_left _ early) final finished
      · rcases List.mem_cons.mp late with rfl | late
        · exact shows task (by simp) final finished
        · exact shows other (by simp [late]) final finished
  | @joined before after task content contents drained finished rest ih =>
    intro other mem
    rcases List.mem_cons.mp mem with rfl | later
    · exact shows task (by simp) other finished
    · exact ih (fun another present => shows another (by
        rcases List.mem_append.mp present with _ | _ <;> simp [*])) other later

theorem spawned_finals (same : (spawned ctx inputs stage calls).map (·.outcome) = finals.map Except.ok) :
    List.Forall₂ (Leaves ctx inputs) ((tasks ctx calls).map (·.1)) finals := by
  have present : ∀ task ∈ tasks ctx calls, executable ctx task.1 = some task.2 := fun task => mem_tasks
  unfold spawned at same
  generalize tasks ctx calls = list at same present
  induction list generalizing finals with
  | nil =>
    cases finals with
    | nil => exact .nil
    | cons => cases same
  | cons task _ ih =>
    cases finals with
    | nil => cases same
    | cons =>
      obtain ⟨first,later⟩ := List.cons.inj same
      refine .cons ?_ (ih later fun other mem => present other (mem_cons_of_mem task mem))
      obtain ⟨content,left,parts⟩ := tool_task_ok (present task mem_cons_self) first
      obtain ⟨_,-,ran⟩ := bind_ok.mp first
      exact ⟨content,left,parts,(run_tool_call_ok ran).2.2⟩

/-- The model call of a streamed step, whatever its attempts: what is shown, and the ledger of the last one. -/
theorem read_finished : ∀ {a b : Attempt} {pending_boundary : Bool}
    {result : ModelCallEnd}, Begins ctx a pending_boundary →
    a.read ctx inputs stage.stream pending_boundary streams = (b,.ok result) →
    ∃ shown t finish_reason, ∃ parts ∈ streams, Processor.new.process ctx b.sent = .ok (inStep shown) ∧
      shown.content = t.content ∧ Assembly.Kept ctx inputs t ∧ t.finish inputs finish_reason = .ok result ∧
      ∃ retries, View.start.read ctx inputs stage.stream.retries_possible retries parts =
        (t.content,.ok (.Finished result)) := by
  induction streams with
  | nil => intro a b pending_boundary result _ done; cases (Prod.mk.inj done).2
  | cons parts _ ih =>
    intro a b pending_boundary result begins done
    rw [Attempt.read] at done
    have reads := @Begins.reads ctx inputs stage.stream a pending_boundary begins parts
    cases attempted : a.read_attempt ctx inputs stage.stream pending_boundary parts with
    | mk c outcome =>
      rw [attempted] at done reads
      cases outcome with
      | error => cases (Prod.mk.inj done).2
      | ok outcome =>
        cases outcome with
        | Retry =>
          obtain ⟨shown,t,finish_reason,last,mem,rest⟩ := ih (begins.next attempted).1 done
          exact ⟨shown,t,finish_reason,last,mem_cons_of_mem _ mem,rest⟩
        | Finished =>
          cases done
          have finished := reads.outcome.symm
          obtain ⟨t,finish_reason,kept,content,finish,-⟩ := View.read_finished parts Assembly.kept_start finished
          have isView : View.start.read ctx inputs stage.stream.retries_possible (a.retries stage.stream) parts =
            (t.content,.ok (.Finished result)) := Prod.ext content finished
          generalize View.read ctx inputs stage.stream.retries_possible (a.retries stage.stream) .start parts = view
            at reads content
          generalize isFinished : Except.ok (AttemptOutcome.Finished result) = outcome at reads
          cases reads with
          | retried => cases isFinished
          | silent => cases isFinished
          | settled shown _ shows =>
            refine ⟨shown,t,finish_reason,parts,mem_cons_self,shows.sent,content,kept,finish,
              a.retries stage.stream,?_⟩
            rw [isView,isFinished]

theorem finish_step_ok {sent : List StreamEvent}
    {shown : StepAccumulator} (processed : Processor.new.process ctx sent = .ok (inStep shown))
    (done : finish_step ctx inputs stage pending_deferred sent result = .ok r) :
    ∃ outputs, stage.schedule.run (spawned ctx inputs stage
        (if is_tool_execution_allowed result.finish_reason then result.queued else [])) = .ok outputs ∧
      r = ⟨shown.content ++ outputs.filter (!isPreliminary ·),
        to_response_messages ctx.tools (shown.content ++ outputs.filter (!isPreliminary ·)),result.finish_reason,
        (tasks ctx (if is_tool_execution_allowed result.finish_reason then result.queued else [])).map (·.1),
        ⟨(client_calls result.tool_calls).length,
          result.client_outputs + (outputs.filter (!isPreliminary ·)).length,result.denied,
          (track_deferred result.tool_calls result.result_ids ctx.execution_tools pending_deferred).card⟩,
        track_deferred result.tool_calls result.result_ids ctx.execution_tools pending_deferred⟩ := by
  have queued : (if is_tool_execution_allowed result.finish_reason then tasks ctx result.queued else []) =
      tasks ctx (if is_tool_execution_allowed result.finish_reason then result.queued else []) := by
    split_ifs <;> rfl
  unfold finish_step at done
  rw [queued] at done
  obtain ⟨outputs,ran,done⟩ := bind_ok.mp done
  obtain ⟨p,handled,done⟩ := bind_ok.mp done
  have shows : ∀ content ∈ outputs, (content_event content).isSome :=
    (stage.schedule.sends _ _ ran).shown fun task mem content finished => (spawned_outcome mem finished).2
  rw [append_assoc,process_append_ok processed,process_append_ok (process_contents outputs shown shows)] at handled
  cases handled
  cases done
  exact ⟨outputs,ran,rfl⟩

theorem stream_step_ok (done : stream_step ctx inputs stage pending_deferred streams = .ok r) :
    ∃ (t : Assembly) (finals outputs : List StepContent), t.Kept ctx inputs ∧
      (∃ attempt, (Attempt.new stage.used_part_ids).read ctx inputs stage.stream false streams =
        (attempt,.ok ⟨r.finish_reason,t.calls,t.queued,t.result_ids,t.client_outputs,t.denied⟩)) ∧
      (∃ parts ∈ streams, ∃ retries, View.start.read ctx inputs stage.stream.retries_possible retries parts =
        (t.content,.ok (.Finished ⟨r.finish_reason,t.calls,t.queued,t.result_ids,t.client_outputs,t.denied⟩))) ∧
      check_tool_choice inputs.parse.tool_choice t.calls = .ok () ∧ outputs.Perm finals ∧
      r.executed = (tasks ctx (if is_tool_execution_allowed r.finish_reason then t.queued else [])).map (·.1) ∧
      List.Forall₂ (Leaves ctx inputs) r.executed finals ∧
      r.content = t.content ++ outputs ∧ r.messages = to_response_messages ctx.tools r.content ∧
      r.pending_deferred = track_deferred t.calls t.result_ids ctx.execution_tools pending_deferred ∧
      r.state = ⟨(client_calls t.calls).length,t.client_outputs + outputs.length,t.denied,r.pending_deferred.card⟩ := by
  unfold stream_step at done
  split at done
  · cases done
  · next attempt result read =>
    obtain ⟨_,t,_,parts,mem,processed,content,kept,finish,retries,isView⟩ :=
      read_finished (begins_new stage.used_part_ids) read
    obtain ⟨_,ran,rfl⟩ := finish_step_ok processed done
    obtain ⟨_,chosen,isResult⟩ := bind_ok.mp finish
    obtain rfl := (Except.ok.inj isResult).symm
    obtain ⟨finals,perm,same⟩ := (stage.schedule.sends _ _ ran).finals fun task mem content finished =>
      (spawned_outcome mem finished).1
    exact ⟨t,finals,_,kept,⟨attempt,read⟩,⟨parts,mem,retries,isView⟩,chosen,perm,rfl,spawned_finals same,by rw [content],rfl,rfl,rfl⟩

theorem step_calls {t : Assembly} {outputs content : List StepContent}
    (kept : t.Kept ctx inputs) (perm : outputs.Perm finals) (each : List.Forall₂ (Leaves ctx inputs) calls finals)
    (whole : content = t.content ++ outputs) : tool_calls content = t.calls := by
  have late : outputs.filterMap (·.asToolCall) = [] :=
    List.perm_nil.mp ((perm.filterMap _).trans (List.Perm.of_eq (leaves_calls each)))
  rw [whole]
  unfold GenerateText.tool_calls
  rw [filterMap_append,late,append_nil]
  exact kept.calls

theorem perm_single {α : Type} {l m : List α} (perm : l.Perm m) (short : m.length ≤ 1) : l = m := by
  match m,short with
  | [],_ => exact List.perm_nil.mp perm
  | [a],_ => exact List.perm_singleton.mp perm

theorem stream_step_ledger (done : stream_step ctx inputs stage pending_deferred streams = .ok r)
    (distinct : ((tool_calls r.content).map (·.tool_call_id)).Nodup) :
    Ledger ctx inputs r.finish_reason (tool_calls r.content) r := by
  obtain ⟨t,finals,outputs,kept,-,-,chosen,perm,executed,each,content,messages,-,state⟩ := stream_step_ok done
  have listed := step_calls kept perm each content
  rw [listed] at distinct ⊢
  have ready_tasks : (tasks ctx t.queued).map (·.1) = t.calls.filter (ready ctx inputs) := by
    rw [tasks_calls,kept.queued,filter_filter]
    refine filter_congr fun call _ => ?_
    cases isReady : ready ctx inputs call with
    | false => simp
    | true =>
      unfold ready at isReady
      simp only [Bool.and_eq_true] at isReady
      simp [isReady.2]
  have ran : r.executed = if is_tool_execution_allowed r.finish_reason then t.calls.filter (ready ctx inputs) else [] := by
    rw [executed]
    split_ifs
    · exact ready_tasks
    · rfl
  refine {
    listed := listed
    chosen := chosen
    resolved := kept.resolved
    executed := ran
    ran := ?_
    parts := ?_
    client_tool_calls := ?_
    client_tool_outputs := ?_
    denied_approvals := ?_
    messages := messages
    finish_reason := rfl }
  · intro call mem
    obtain ⟨_,-,left,only,-⟩ := Result.each_left each mem
    exact ⟨left,only⟩
  · intro id
    have own : ∀ call, ∀ entry ∈ verdict ctx inputs call (is_tool_execution_allowed r.finish_reason),
        entry.1 = call.tool_call_id := fun call entry mem => verdict_own mem
    have finalParts := congrArg (List.filter (·.1 = id)) (executed_tool_parts (t := ctx.tools) ran each)
    rw [StableSort.filter_flatMap ParsedToolCall.tool_call_id (fun call entry mem =>
      own call entry (mem_append_right _ mem))] at finalParts
    have outputParts : (outputs.flatMap (tool_part ctx.tools)).filter (·.1 = id) =
        (finals.flatMap (tool_part ctx.tools)).filter (·.1 = id) := by
      refine perm_single ((perm.flatMap_right _).filter _) ?_
      rw [finalParts]
      rcases StableSort.filter_key distinct id with none_ | ⟨call,-,-,only⟩
      · simp [none_]
      · rw [only,flatMap_singleton]
        split_ifs
        · exact outcome_short ctx.tools
        · simp
    rw [content,flatMap_append,filter_append,outputParts,finalParts,kept.parts,
      StableSort.filter_flatMap ParsedToolCall.tool_call_id (fun call entry mem =>
        own call entry (mem_append_left _ mem))]
    rcases StableSort.filter_key distinct id with none_ | ⟨_,-,-,only⟩
    · simp [none_]
    · simp [only,verdict]
  · rw [state,countP_eq_length_filter]
    rfl
  · rw [state,kept.client_outputs,each.length_eq,perm.length_eq]
  · rw [state,kept.denied]

theorem stream_step_calls {attempt : Attempt} (done : stream_step ctx inputs stage pending_deferred streams = .ok r)
    (read : (Attempt.new stage.used_part_ids).read ctx inputs stage.stream false streams = (attempt,.ok result)) :
    tool_calls r.content = result.tool_calls ∧ r.finish_reason = result.finish_reason := by
  obtain ⟨t,_,_,kept,⟨_,same⟩,-,-,perm,-,each,content,-⟩ := stream_step_ok done
  cases read.symm.trans same
  exact ⟨step_calls kept perm each content,rfl⟩

end

/-! ### Continuation -/

/-- No call of the provider is denied, or not as many as calls of the client stay open. -/
def Matched (ctx : LoopContext) (inputs : StepInputs) (finish_reason : FinishReason) (calls : List ParsedToolCall) : Prop :=
  calls.countP (hostedDenial ctx inputs) = 0 ∨ calls.countP (hostedDenial ctx inputs) ≠
    calls.countP (waits ctx inputs · (is_tool_execution_allowed finish_reason))

instance (ctx : LoopContext) (inputs : StepInputs) (finish_reason : FinishReason) (calls : List ParsedToolCall) :
    Decidable (Matched ctx inputs finish_reason calls) := inferInstanceAs (Decidable (_ ∨ _))

/-- Both loops go on soundly after a step exactly when the denials of the step match calls of the client. -/
theorem continues_soundly_iff (ctx : LoopContext) (inputs : StepInputs) (pending_deferred : Finset ToolCallId) :
    (∀ duration_ms result r, run_step ctx inputs duration_ms result pending_deferred = .ok r →
      ((stepCalls ctx inputs result.content).map (·.tool_call_id)).Nodup →
      (ContinuesSoundly r ↔ Matched ctx inputs result.finish_reason (stepCalls ctx inputs result.content))) ∧
    (∀ stage streams attempt result r,
      (Attempt.new stage.used_part_ids).read ctx inputs stage.stream false streams = (attempt,.ok result) →
      stream_step ctx inputs stage pending_deferred streams = .ok r → (result.tool_calls.map (·.tool_call_id)).Nodup →
      (ContinuesSoundly r ↔ Matched ctx inputs result.finish_reason result.tool_calls)) := by
  constructor
  · intro duration_ms result r done distinct
    exact (run_step_ledger done distinct).sound_iff distinct
  · intro stage streams attempt result r read done distinct
    obtain ⟨calls,finish_reason⟩ := stream_step_calls done read
    rw [← calls] at distinct ⊢
    rw [← finish_reason]
    exact (stream_step_ledger done distinct).sound_iff distinct

def hostedTool : Tool := { plainTool .null with kind := .ProviderExecuted "web_search" [] false,execute := none }

def shopTools : ToolSet := [("search",hostedTool),("purchase",plainTool .null)]

def searchAndPurchase : List ToolCall :=
  [{ ToolCall.new "s" "search" "" with provider_executed := true },.new "p" "purchase" ""]

theorem continues_soundly_shop :
    let ctx := LoopContext.plain shopTools none
    let inputs := StepInputs.plain shopTools
    let stage : StageContext := ⟨⟨false,none,none⟩,.inOrder,fun _ => 0,[]⟩
    (∃ r, run_step ctx inputs (fun _ => 0) ⟨searchAndPurchase.map .ToolCall,.new .ToolCalls⟩ ∅ = .ok r ∧
      ContinuesSoundly r) ∧
    ∃ r, stream_step ctx inputs stage ∅ [searchAndPurchase.map .ToolCall ++ [.Finish (.new .ToolCalls) .default none]] =
      .ok r ∧ ContinuesSoundly r := by
  intro ctx inputs stage
  constructor
  · obtain ⟨r,done⟩ := exists_ok (show (run_step ctx inputs (fun _ => 0)
      ⟨searchAndPurchase.map .ToolCall,.new .ToolCalls⟩ ∅).isOk = true by decide)
    exact ⟨r,done,((continues_soundly_iff ctx inputs ∅).1 _ _ r done (by decide)).mpr (by decide)⟩
  · let streams := [searchAndPurchase.map StreamPart.ToolCall ++ [.Finish (.new .ToolCalls) .default none]]
    obtain ⟨r,done⟩ := exists_ok (show (stream_step ctx inputs stage ∅ streams).isOk = true by decide)
    have check : ((Attempt.new stage.used_part_ids).read ctx inputs stage.stream false streams).2.toOption.any
        (fun result => (result.tool_calls.map (·.tool_call_id)).Nodup ∧
          Matched ctx inputs result.finish_reason result.tool_calls) = true := by decide
    obtain ⟨t,_,_,-,⟨attempt,read⟩,-⟩ := stream_step_ok done
    rw [read] at check
    obtain ⟨distinct,matched⟩ := of_decide_eq_true check
    exact ⟨r,done,((continues_soundly_iff ctx inputs ∅).2 stage streams attempt _ r read done distinct).mpr matched⟩

def splitPolicy : ApprovalPolicy := fun call _ =>
  some (if call.provider_executed then .Denied none else .UserApproval none)

/-- One call of the provider that is denied makes up for one call of the client that awaits the user: the step goes on
although the call of the client has no outcome. -/
theorem denied_search_hides_open_purchase :
    ∃ (ctx : LoopContext) (inputs : StepInputs) (result : GenerateResult) (r : StepResult),
      run_step ctx inputs (fun _ => 0) result ∅ = .ok r ∧
      ((stepCalls ctx inputs result.content).map (·.tool_call_id)).Nodup ∧ ¬ ContinuesSoundly r := by
  let ctx := LoopContext.plain shopTools (some splitPolicy)
  let inputs := StepInputs.plain shopTools
  let result : GenerateResult := ⟨searchAndPurchase.map .ToolCall,.new .ToolCalls⟩
  have distinct : ((stepCalls ctx inputs result.content).map (·.tool_call_id)).Nodup := by decide
  obtain ⟨r,done⟩ := exists_ok
    (show (run_step ctx inputs (fun _ => 0) result ∅).isOk = true by decide)
  refine ⟨ctx,inputs,result,r,done,distinct,fun sound => ?_⟩
  have matched := ((run_step_ledger done distinct).sound_iff distinct).mp sound
  exact absurd matched (by decide)

end Ferrin.StreamText
