import Ferrin.GenerateText.Inputs
import Ferrin.GenerateText.Replay
import Ferrin.Library.Runs

/-!
The loop of steps, and the accounting of its response messages: what a replay
and every step add is sent to the model, and recorded, exactly once.
-/
namespace Ferrin.GenerateText
open List
open Result (bind_error bind_ok)

/-- What a step gets from outside: the answers of the hook, of the model and of the stop conditions. -/
structure Turn where
  overrides : Except Error StepOverrides
  result : Except Error GenerateResult
  duration_ms : ToolCallId → Nat
  stop : Bool

structure Loop where
  step_state : StepState
  replay_message : Option Message
  response_messages : List Message
  steps : List StepResult
  pending_deferred : Finset ToolCallId
  finished : Bool

namespace Loop

def start (ctx : LoopContext) (config : CallConfig) (duration_ms : ToolCallId → Nat) : Except Failure Loop := do
  let replay ← fallible (replay_approvals ctx config.environment duration_ms config.initial_messages)
  let replay_message := replay_tool_message ctx.execution_tools replay
  return ⟨.new config,replay_message,replay_message.toList,[],∅,false⟩

def record (loop : Loop) (step : StepResult) : StepResult :=
  if loop.steps.isEmpty then { step with messages := loop.replay_message.toList ++ step.messages } else step

def turn (ctx : LoopContext) (config : CallConfig) (loop : Loop) (turn : Turn) : Except Failure Loop := do
  let prepared ← prepare_step_inputs config loop.response_messages turn.overrides loop.step_state
  let result ← fallible turn.result
  let step ← fallible (run_step ctx prepared.inputs turn.duration_ms result loop.pending_deferred)
  return { loop with
    step_state := prepared.state
    response_messages := loop.response_messages ++ step.messages
    steps := loop.steps ++ [loop.record step]
    pending_deferred := step.pending_deferred
    finished := !step.state.should_continue || turn.stop }

def run (ctx : LoopContext) (config : CallConfig) : Loop → List Turn → Except Failure Loop :=
  Runs.loop (·.finished) (turn ctx config)

end Loop

/-! ### Accounting -/

structure Recorded where
  content : List StepContent
  messages : List Message

/-- `GenerateTextResult::response_messages`. -/
def response_messages (steps : List Recorded) : List Message := steps.flatMap (·.messages)

def own_messages (tools : ToolSet) (step : Recorded) : List Message := to_response_messages tools step.content

structure Ledgered (tools : ToolSet) (replay : Option Message) (responses : List Message) (steps : List Recorded) :
    Prop where
  accumulated : responses = replay.toList ++ steps.flatMap (own_messages tools)
  recorded : ∀ k step, steps[k]? = some step →
    step.messages = if k = 0 then replay.toList ++ own_messages tools step else own_messages tools step

/-- Every message is sent once and in its order, the recorded messages are those accumulated, and the slice of new
    responses is in range. -/
structure Accounted (tools : ToolSet) (config : CallConfig) (replay : Option Message) (state : StepState)
    (responses : List Message) (steps : List Recorded) : Prop where
  sent : ∀ overrides prepared, overrides.messages = none →
    prepare_step_inputs config responses (.ok overrides) state = .ok prepared →
    prepared.inputs.messages = config.initial_messages ++ replay.toList ++ steps.flatMap (own_messages tools)
  recorded : ∀ k step, steps[k]? = some step →
    step.messages = if k = 0 then replay.toList ++ own_messages tools step else own_messages tools step
  counted : steps ≠ [] → response_messages steps = responses
  in_range : ∀ overrides, prepare_step_inputs config responses overrides state ≠ .error .OutOfRange

section
variable {tools : ToolSet} {replay : Option Message} {responses : List Message} {steps : List Recorded}
  {config : CallConfig} {state : StepState}

theorem Ledgered.start : Ledgered tools replay replay.toList [] :=
  ⟨by simp,fun k step found => by simp at found⟩

section
variable (ledger : Ledgered tools replay responses steps)
include ledger

theorem Ledgered.step {step : Recorded}
    (messages : step.messages =
      if steps.isEmpty then replay.toList ++ own_messages tools step else own_messages tools step) :
    Ledgered tools replay (responses ++ own_messages tools step) (steps ++ [step]) := by
  refine ⟨?_,?_⟩
  · simp [ledger.accumulated]
  · intro k recorded found
    rcases Nat.lt_or_ge k steps.length with before | now
    · rw [getElem?_append_left before] at found
      exact ledger.recorded k recorded found
    · rw [getElem?_append_right now,getElem?_singleton] at found
      split at found
      case isTrue last =>
        cases found
        have length : k = steps.length := Nat.le_antisymm (Nat.le_of_sub_eq_zero last) now
        rw [messages,length]
        cases steps with
        | nil => rfl
        | cons => rfl
      case isFalse => cases found

theorem Ledgered.counted (any : steps ≠ []) :
    response_messages steps = responses := by
  rw [ledger.accumulated]
  cases steps with
  | nil => exact absurd rfl any
  | cons first rest =>
    have head : first.messages = replay.toList ++ own_messages tools first := ledger.recorded 0 first rfl
    have tail : rest.flatMap (·.messages) = rest.flatMap (own_messages tools) := by
      refine flatMap_congr fun step member => ?_
      obtain ⟨k,_⟩ := getElem?_of_mem member
      exact ledger.recorded (k + 1) step (by rwa [getElem?_cons_succ])
    simp [response_messages,head,tail]

theorem Ledgered.accounted
    (reads : state.Reads config.initial_messages responses) :
    Accounted tools config replay state responses steps where
  sent overrides prepared kept done := by
    rw [(reads.prepare kept done).1,ledger.accumulated,append_assoc]
  recorded := ledger.recorded
  counted := ledger.counted
  in_range := reads.not_out_of_range

end

end

def keeps_messages (overrides : Except Error StepOverrides) : Prop :=
  ∀ answer, overrides = .ok answer → answer.messages = none

def StepResult.recorded (step : StepResult) : Recorded := ⟨step.content,step.messages⟩

theorem run_step_messages {ctx : LoopContext} {inputs : StepInputs} {duration_ms : ToolCallId → Nat}
    {result : GenerateResult} {pending : Finset ToolCallId} {step : StepResult}
    (done : run_step ctx inputs duration_ms result pending = .ok step) :
    step.messages = to_response_messages ctx.tools step.content := by
  obtain ⟨_,_,done⟩ := bind_ok.mp done
  obtain ⟨_,_,done⟩ := bind_ok.mp done
  obtain ⟨_,_,done⟩ := bind_ok.mp done
  cases done
  rfl

namespace Loop

/-- What every turn preserves. -/
structure Accounts (ctx : LoopContext) (config : CallConfig) (replay : Option Message) (loop : Loop) : Prop where
  replayed : loop.replay_message = replay
  ledger : Ledgered ctx.tools replay loop.response_messages (loop.steps.map (·.recorded))
  reads : loop.step_state.Reads config.initial_messages loop.response_messages

section
variable {ctx : LoopContext} {config : CallConfig} {duration_ms : ToolCallId → Nat} {loop next : Loop}

theorem start_accounts (started : start ctx config duration_ms = .ok loop) :
    loop.Accounts ctx config loop.replay_message := by
  obtain ⟨_,_,started⟩ := bind_ok.mp started
  cases started
  exact ⟨rfl,.start,StepState.reads_new⟩

theorem Accounts.turn {replay : Option Message} {turn : Turn} (accounts : loop.Accounts ctx config replay)
    (kept : keeps_messages turn.overrides) (taken : loop.turn ctx config turn = .ok next) :
    next.Accounts ctx config replay := by
  obtain ⟨_,ready,taken⟩ := bind_ok.mp taken
  obtain ⟨_,_,taken⟩ := bind_ok.mp taken
  obtain ⟨step,ran,taken⟩ := bind_ok.mp taken
  cases taken
  have own : step.messages = own_messages ctx.tools (loop.record step).recorded := by
    rw [run_step_messages (fallible_ok.mp ran),record]
    split <;> rfl
  have messages : (loop.record step).recorded.messages = if (loop.steps.map (·.recorded)).isEmpty then
      replay.toList ++ own_messages ctx.tools (loop.record step).recorded
      else own_messages ctx.tools (loop.record step).recorded := by
    rw [← own,isEmpty_map]
    cases first : loop.steps.isEmpty with
    | true => simp [record,first,StepResult.recorded,accounts.replayed]
    | false => simp [record,first,StepResult.recorded]
  have ledger := accounts.ledger.step messages
  cases answer : turn.overrides with
  | error =>
    rw [answer,prepare_step_inputs,accounts.reads.extend] at ready
    cases ready
  | ok overrides =>
    rw [answer] at ready
    have reads := (accounts.reads.prepare (kept overrides answer) ready).2
    refine ⟨accounts.replayed,?_,?_⟩
    · rwa [← own,← map_singleton,← map_append] at ledger
    · exact reads.grows step.messages

theorem Accounts.accounted {replay : Option Message} (accounts : loop.Accounts ctx config replay) :
    Accounted ctx.tools config replay loop.step_state loop.response_messages (loop.steps.map (·.recorded)) :=
  accounts.ledger.accounted accounts.reads

theorem run_accounts {turns : List Turn} (started : start ctx config duration_ms = .ok loop)
    (kept : ∀ turn ∈ turns, keeps_messages turn.overrides) :
    (∀ reached, loop.run ctx config turns = .ok reached → reached.Accounts ctx config loop.replay_message) ∧
      loop.run ctx config turns ≠ .error .OutOfRange := by
  have preserved : ∀ s : Loop, ∀ turn ∈ turns, ∀ s' : Loop, s.Accounts ctx config loop.replay_message →
      s.turn ctx config turn = .ok s' → s'.Accounts ctx config loop.replay_message :=
    fun s turn mem s' accounts taken => accounts.turn (kept turn mem) taken
  constructor
  · intro reached ran
    exact Runs.loop_invariant preserved (start_accounts started) ran
  · intro failed
    obtain ⟨s,_,accounts,_,broke⟩ := Runs.loop_error preserved (start_accounts started) failed
    rcases bind_error.mp broke with sliced | ⟨_,_,broke⟩
    · exact accounts.reads.not_out_of_range _ sliced
    rcases bind_error.mp broke with other | ⟨_,_,broke⟩
    · exact fallible_in_range other
    rcases bind_error.mp broke with other | ⟨_,_,broke⟩
    · exact fallible_in_range other
    · cases broke

end

end Loop

end Ferrin.GenerateText
