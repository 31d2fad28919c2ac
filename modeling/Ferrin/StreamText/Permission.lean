import Ferrin.GenerateText.Loop
import Ferrin.StreamText.StageLedger

/-!
No tool runs without permission, in any step of a run of either loop.
-/
namespace Ferrin.StreamText
open Ferrin.GenerateText List
open Result (bind_ok)

/-- What lets the client run a call: no approval stands against it, and none is still to be given. -/
structure Permits (ctx : LoopContext) (inputs : StepInputs) (call : ParsedToolCall) : Prop where
  client : call.provider_executed = false
  valid : call.invalid = false
  runs : (executable ctx call).isSome
  decided : decision ctx inputs call = .ok none ∨ ∃ approval response, decision ctx inputs call = .ok (some approval) ∧
    approval.response = some response ∧ response.approved = true

/-- The calls of a step whose tools run: each once, in order, and with permission. -/
structure Permitted (ctx : LoopContext) (inputs : StepInputs) (finish_reason : FinishReason)
    (calls executed : List ParsedToolCall) : Prop where
  once : executed <+ calls
  finished : executed ≠ [] → is_tool_execution_allowed finish_reason = true
  permits : ∀ call ∈ executed, Permits ctx inputs call

section
variable {ctx : LoopContext} {inputs : StepInputs} {finish_reason : FinishReason} {calls : List ParsedToolCall}
  {call : ParsedToolCall}

theorem permits_of_ready (isReady : ready ctx inputs call = true)
    (resolved : ∃ approval, decision ctx inputs call = .ok approval) : Permits ctx inputs call := by
  simp only [ready,Bool.and_eq_true,Bool.not_eq_true'] at isReady
  obtain ⟨⟨⟨client,valid⟩,free⟩,runs⟩ := isReady
  refine ⟨client,valid,runs,?_⟩
  obtain ⟨approval,resolved⟩ := resolved
  cases approval with
  | none => exact .inl resolved
  | some approval =>
    rw [GenerateText.held,approval_of_ok resolved] at free
    obtain ⟨_,status,recorded⟩ := decision_some resolved
    rcases (call_approval_some recorded).2 with ⟨response,answer,-,opposite⟩ | ⟨_,blocked⟩
    · exact .inr ⟨approval,response,resolved,answer,by simpa [opposite] using free⟩
    · simp [blocked] at free

theorem permitted_filter {p : ParsedToolCall → Bool}
    (resolved : ∀ call ∈ calls, ∃ approval, decision ctx inputs call = .ok approval)
    (sound : ∀ call ∈ calls, p call = true → ready ctx inputs call = true) :
    Permitted ctx inputs finish_reason calls (if is_tool_execution_allowed finish_reason then calls.filter p else []) := by
  split_ifs with allowed
  · refine ⟨filter_sublist,fun _ => allowed,fun call mem => ?_⟩
    obtain ⟨listed,picked⟩ := mem_filter.mp mem
    exact permits_of_ready (sound call listed picked) (resolved call listed)
  · exact ⟨nil_sublist _,fun some_ => absurd rfl some_,by simp⟩

theorem run_step_permitted {duration_ms : ToolCallId → Nat} {result : GenerateResult} {pending : Finset ToolCallId}
    {r : StepResult} (done : run_step ctx inputs duration_ms result pending = .ok r) :
    Permitted ctx inputs r.finish_reason (stepCalls ctx inputs result.content) r.executed := by
  obtain ⟨approvals,_,-,resolving,-,-,-,finish,executed,-⟩ := run_step_ok done
  obtain ⟨resolved,-,-,blocked⟩ := resolve_approvals_ok resolving
  rw [executed,tasks_calls,handed,finish,to_execute,apply_ite (filter _),filter_filter,filter_nil]
  refine permitted_filter resolved fun call listed picked => ?_
  simp only [Bool.and_eq_true,Bool.not_eq_true',decide_eq_true_eq] at picked
  obtain ⟨runs,⟨client,valid⟩,free⟩ := picked
  have unheld : GenerateText.held ctx inputs call = false := by
    by_contra isHeld
    exact free ((blocked _).mpr ⟨call,listed,rfl,by simpa using isHeld⟩)
  simp [ready,client,valid,unheld,runs]

theorem stream_step_permitted {stage : StageContext} {pending_deferred : Finset ToolCallId} {streams : List (List StreamPart)}
    {r : StepResult} (done : stream_step ctx inputs stage pending_deferred streams = .ok r) :
    Permitted ctx inputs r.finish_reason (GenerateText.tool_calls r.content) r.executed := by
  obtain ⟨t,finals,outputs,kept,-,-,-,perm,executed,each,content,-⟩ := stream_step_ok done
  rw [step_calls kept perm each content,executed,tasks_calls,kept.queued,apply_ite (filter _),filter_filter,filter_nil]
  refine permitted_filter kept.resolved fun call _ picked => ?_
  exact (Bool.and_eq_true_iff.mp picked).2

end

/-- What is known of the steps of a run so far. -/
def StepsPermitted (ctx : LoopContext) (config : CallConfig) (turns : List GenerateText.Turn) (loop : Loop) : Prop :=
  ∀ step ∈ loop.steps, ∃ turn ∈ turns, ∃ responses state prepared result,
    prepare_step_inputs config responses turn.overrides state = .ok prepared ∧ turn.result = .ok result ∧
      Permitted ctx prepared.inputs step.finish_reason (stepCalls ctx prepared.inputs result.content) step.executed

theorem turn_permitted {ctx : LoopContext} {config : CallConfig} {turns : List GenerateText.Turn} {loop next : Loop} {turn : GenerateText.Turn}
    (mem : turn ∈ turns) (before : StepsPermitted ctx config turns loop) (taken : loop.turn ctx config turn = .ok next) :
    StepsPermitted ctx config turns next := by
  obtain ⟨prepared,ready,taken⟩ := bind_ok.mp taken
  obtain ⟨result,answered,taken⟩ := bind_ok.mp taken
  obtain ⟨step,ran,taken⟩ := bind_ok.mp taken
  cases taken
  intro recorded listed
  rcases List.mem_append.mp listed with earlier | last
  · exact before recorded earlier
  · obtain rfl := List.mem_singleton.mp last
    refine ⟨turn,mem,_,_,prepared,result,ready,fallible_ok.mp answered,?_⟩
    have permitted := run_step_permitted (fallible_ok.mp ran)
    unfold Loop.record
    split <;> exact permitted

/-- Whatever a run does, in every step only permitted calls are executed, each of them once; and so in a streamed step. -/
theorem tools_run_permitted (ctx : LoopContext) :
    (∀ config duration_ms turns start reached, Loop.start ctx config duration_ms = .ok start →
      start.run ctx config turns = .ok reached → StepsPermitted ctx config turns reached) ∧
    ∀ inputs stage pending_deferred streams r, stream_step ctx inputs stage pending_deferred streams = .ok r →
      Permitted ctx inputs r.finish_reason (GenerateText.tool_calls r.content) r.executed := by
  refine ⟨fun config duration_ms turns start reached started ran => ?_,
    fun inputs stage pending_deferred streams r done => stream_step_permitted done⟩
  have nothing : start.steps = [] := by
    obtain ⟨_,_,started⟩ := bind_ok.mp started
    cases started
    rfl
  exact Runs.loop_invariant (fun loop turn mem next before taken => turn_permitted mem before taken)
    (fun step mem => by simp [nothing] at mem) ran

def shopTurn : GenerateText.Turn := ⟨.ok .default,.ok ⟨searchAndPurchase.map .ToolCall,.new .ToolCalls⟩,fun _ => 0,false⟩

theorem tools_run_permitted_shop :
    let ctx := LoopContext.plain shopTools none
    let config := CallConfig.plain shopTools []
    ∃ start reached, Loop.start ctx config (fun _ => 0) = .ok start ∧ start.run ctx config [shopTurn] = .ok reached ∧
      (reached.steps.flatMap (·.executed)).map (·.tool_call_id) = ["p"] ∧
      StepsPermitted ctx config [shopTurn] reached := by
  intro ctx config
  have check : (Loop.start ctx config (fun _ => 0)).toOption.any (fun start => (start.run ctx config [shopTurn]).toOption.any
      fun reached => (reached.steps.flatMap (·.executed)).map (·.tool_call_id) = ["p"]) = true := by decide
  obtain ⟨start,started,check⟩ := Result.toOption_any.mp check
  obtain ⟨reached,ran,check⟩ := Result.toOption_any.mp check
  exact ⟨start,reached,started,ran,of_decide_eq_true check,
    (tools_run_permitted ctx).1 config _ [shopTurn] start reached started ran⟩

end Ferrin.StreamText
