import Ferrin.GenerateText.Loop
import Ferrin.StreamText.StageLedger

/-!
The streamed loop: the stage sends the events of each step through the user
transforms to the processor, and goes on with the step that the processor built.
-/
namespace Ferrin.StreamText
open Ferrin.GenerateText Processor

/-- The user transforms: what they release at the end of a step, after the events that were sent earlier and those
    sent since. The calls of this function are one for each step, which is the boundary that transforms preserve. -/
abbrev StreamTransform := (earlier events : List StreamEvent) → List StreamEvent

def StreamTransform.none : StreamTransform := fun _ events => events

structure StageConfig where
  stream : StreamConfig
  transform : StreamTransform

structure StreamTurn where
  overrides : Except Error StepOverrides
  streams : List (List StreamPart)
  schedule : Schedule
  duration_ms : ToolCallId → Nat
  stop : Bool

/-- What the stage made of a step before the consumer built it. -/
structure StepEnd where
  sent : List StreamEvent
  state : LoopState
  pending_deferred : Finset ToolCallId
  used_part_ids : List PartId

structure Stage where
  step_state : StepState
  replay_message : Option Message
  response_messages : List Message
  steps : List FinishedStep
  pending_deferred : Finset ToolCallId
  used_part_ids : List PartId
  buffer : List StreamEvent
  sent : List StreamEvent
  processor : Processor
  finished : Bool

namespace Stage

def run_step (ctx : LoopContext) (inputs : StepInputs) (stage : StageContext) (pending_deferred : Finset ToolCallId)
    (streams : List (List StreamPart)) : Except Error StepEnd :=
  match (Attempt.new stage.used_part_ids).read ctx inputs stage.stream false streams with
  | (_,.error error) => .error error
  | (attempt,.ok result) => do
    let queued := if is_tool_execution_allowed result.finish_reason then tasks ctx result.queued else []
    let outputs ← stage.schedule.run (queued.map fun (call,tool) => spawn inputs stage.duration_ms call tool)
    let pending := track_deferred result.tool_calls result.result_ids ctx.execution_tools pending_deferred
    return {
      sent := attempt.sent ++ outputs.filterMap content_event ++ [.FinishStep result.finish_reason]
      state := {
        client_tool_calls := (client_calls result.tool_calls).length
        client_tool_outputs := result.client_outputs + (outputs.filter (!isPreliminary ·)).length
        denied_approvals := result.denied
        pending_deferred := pending.card }
      pending_deferred := pending
      used_part_ids := attempt.used_ids }

/-- The outputs of the replay wait in the emitter until the first model call succeeds. -/
def start (ctx : LoopContext) (config : CallConfig) (duration_ms : ToolCallId → Nat) : Except Failure Stage := do
  let replay ← fallible (replay_approvals ctx config.environment duration_ms config.initial_messages)
  let replay_message := replay_tool_message ctx.execution_tools replay
  return {
    step_state := .new config
    replay_message
    response_messages := replay_message.toList
    steps := []
    pending_deferred := ∅
    used_part_ids := []
    buffer := replay.filterMap content_event
    sent := []
    processor := .new
    finished := false }

def build (ctx : LoopContext) (p : Processor) (released : List StreamEvent) : Except Error (Processor × FinishedStep) := do
  let built ← p.process ctx released
  match built.steps.drop p.steps.length with
  | [step] => return (built,step)
  | _ => .error .Cancelled

def turn (ctx : LoopContext) (config : CallConfig) (stage_config : StageConfig) (stage : Stage) (turn : StreamTurn) :
    Except Failure Stage := do
  let prepared ← prepare_step_inputs config stage.response_messages turn.overrides stage.step_state
  let step_end ← fallible (run_step ctx prepared.inputs
    ⟨stage_config.stream,turn.schedule,turn.duration_ms,stage.used_part_ids⟩ stage.pending_deferred turn.streams)
  let events := stage.buffer ++ step_end.sent
  let (processor,step) ← fallible (build ctx stage.processor (stage_config.transform stage.sent events))
  let replayed := if stage.steps.isEmpty && stage.replay_message.isSome then 1 else 0
  return { stage with
    step_state := prepared.state
    response_messages := stage.response_messages ++ step.messages.drop replayed
    steps := stage.steps ++ [step]
    pending_deferred := step_end.pending_deferred
    used_part_ids := step_end.used_part_ids
    buffer := []
    sent := stage.sent ++ events
    processor
    finished := !step_end.state.should_continue || turn.stop }

def run (ctx : LoopContext) (config : CallConfig) (stage_config : StageConfig) :
    Stage → List StreamTurn → Except Failure Stage :=
  Ferrin.Runs.loop (·.finished) (turn ctx config stage_config)

end Stage

/-! ### The step that the consumer builds -/

def pushed : StreamEvent → Option StepContent
  | .ReasoningFile file => some (.ReasoningFile file)
  | .File file => some (.File file)
  | .Source source => some (.Source source)
  | .Custom kind metadata => some (.Custom kind metadata)
  | .ToolCall call => some (.ToolCall call)
  | .ToolResult result => if result.preliminary then none else some (.ToolResult result)
  | .ToolError error => some (.ToolError error)
  | .ToolApprovalRequest request => some (.ToolApprovalRequest request)
  | .ToolApprovalResponse response => some (.ToolApprovalResponse response)
  | .ToolOutputDenied denied => some (.ToolOutputDenied denied)
  | _ => none

def replayed : List StreamEvent → List StepContent
  | [] => []
  | .StartStep _ :: _ => []
  | event :: rest => (pushed event).toList ++ replayed rest

section
variable {ctx : LoopContext} {p p' : Processor}

theorem handle_within {event : StreamEvent} (within : p.current.isSome) (goes_on : ∀ reason, event ≠ .FinishStep reason)
    (handled : p.handle ctx event = .ok p') :
    p'.current.isSome ∧ p'.replay = p.replay ∧ p'.steps = p.steps := by
  obtain ⟨_,current⟩ := Option.isSome_iff_exists.mp within
  cases event with
  | FinishStep reason => exact absurd rfl (goes_on reason)
  | StartStep | RetryAttempt | TextStart | ReasoningStart | ReasoningFile | File | Source | Custom | ToolCall | ToolError
  | ToolApprovalRequest | ToolApprovalResponse | ToolOutputDenied | ToolInputStart | ToolInputDelta | ToolInputEnd | Raw =>
    simp only [handle,start_part,current_step,push_content,current] at handled
    cases handled
    simp [current]
  | ToolResult =>
    simp only [handle,push_content,current] at handled
    cases handled
    split <;> simp [current]
  | TextDelta | TextEnd | ReasoningDelta | ReasoningEnd =>
    simp only [handle,update_part,current_step,current] at handled
    obtain ⟨_,_,handled⟩ := Result.bind_ok.mp handled
    obtain ⟨_,_,handled⟩ := Result.bind_ok.mp handled
    cases handled
    exact ⟨rfl,rfl,rfl⟩

theorem handle_outside {event : StreamEvent} (outside : p.current = none)
    (stays : ∀ warnings, event ≠ .StartStep warnings) (handled : p.handle ctx event = .ok p') :
    p'.current = none ∧ p'.replay = p.replay ++ (pushed event).toList ∧ p'.steps = p.steps := by
  cases event with
  | StartStep warnings => exact absurd rfl (stays warnings)
  | RetryAttempt | ReasoningFile | File | Source | Custom | ToolCall | ToolError | ToolApprovalRequest
  | ToolApprovalResponse | ToolOutputDenied | ToolInputStart | ToolInputDelta | ToolInputEnd | Raw =>
    simp only [handle,push_content,outside] at handled
    cases handled
    simp [outside,pushed]
  | ToolResult result =>
    simp only [handle,push_content,outside] at handled
    cases handled
    cases preliminary : result.preliminary <;> simp [outside,pushed,preliminary]
  | TextStart | ReasoningStart | TextDelta | TextEnd | ReasoningDelta | ReasoningEnd =>
    simp only [handle,start_part,update_part,current_step,outside] at handled
    cases handled
  | FinishStep =>
    simp only [handle,Processor.finish_step,outside] at handled
    cases handled

theorem handle_finish {reason : FinishReason} (handled : p.handle ctx (.FinishStep reason) = .ok p') :
    ∃ content, p'.replay = p.replay ∧ p'.steps = p.steps ++ [⟨content,
      (if p.steps = [] then (replay_tool_message ctx.execution_tools p.replay).toList else []) ++
        to_response_messages ctx.tools content,reason⟩] := by
  unfold handle Processor.finish_step at handled
  cases current : p.current with
  | none =>
    rw [current] at handled
    cases handled
  | some acc =>
    rw [current] at handled
    cases handled
    exact ⟨acc.content,rfl,rfl⟩

theorem handle_steps {event : StreamEvent} (handled : p.handle ctx event = .ok p') : p'.steps = p.steps ∨
    ∃ content reason, p'.steps = p.steps ++ [⟨content,
      (if p.steps = [] then (replay_tool_message ctx.execution_tools p.replay).toList else []) ++
        to_response_messages ctx.tools content,reason⟩] := by
  by_cases finishes : ∃ reason, event = .FinishStep reason
  · obtain ⟨reason,rfl⟩ := finishes
    obtain ⟨content,_,steps⟩ := handle_finish handled
    exact .inr ⟨content,reason,steps⟩
  by_cases starts : ∃ warnings, event = .StartStep warnings
  · obtain ⟨warnings,rfl⟩ := starts
    cases handled
    exact .inl rfl
  cases current : p.current with
  | none =>
    exact .inl (handle_outside current (fun warnings same => starts ⟨warnings,same⟩) handled).2.2
  | some =>
    exact .inl (handle_within (by simp [current]) (fun reason same => finishes ⟨reason,same⟩) handled).2.2

theorem handle_replay {event : StreamEvent} (handled : p.handle ctx event = .ok p') : p.replay <+: p'.replay := by
  by_cases finishes : ∃ reason, event = .FinishStep reason
  · obtain ⟨reason,rfl⟩ := finishes
    obtain ⟨_,replay,_⟩ := handle_finish handled
    rw [replay]
  by_cases starts : ∃ warnings, event = .StartStep warnings
  · obtain ⟨warnings,rfl⟩ := starts
    cases handled
    exact List.prefix_rfl
  cases current : p.current with
  | none =>
    rw [(handle_outside current (fun warnings same => starts ⟨warnings,same⟩) handled).2.1]
    exact List.prefix_append _ _
  | some =>
    rw [(handle_within (by simp [current]) (fun reason same => finishes ⟨reason,same⟩) handled).2.1]

theorem process_later {events : List StreamEvent} (first : p.steps ≠ []) (processed : p.process ctx events = .ok p') :
    ∃ added, p'.steps = p.steps ++ added ∧ ∀ step ∈ added, step.messages = to_response_messages ctx.tools step.content := by
  induction events generalizing p with
  | nil =>
    cases processed
    exact ⟨[],by simp,by simp⟩
  | cons _ _ ih =>
    rw [process_cons] at processed
    obtain ⟨_,handled,later⟩ := Result.bind_ok.mp processed
    rcases handle_steps handled with same | ⟨_,_,finished⟩
    · obtain ⟨added,steps,own⟩ := ih (by rwa [same]) later
      exact ⟨added,by rw [steps,same],own⟩
    · obtain ⟨added,steps,own⟩ := ih (by simp [finished]) later
      refine ⟨_ :: added,by rw [steps,finished,List.append_assoc]; rfl,?_⟩
      intro step mem
      rcases List.mem_cons.mp mem with rfl | mem
      · simp [first]
      · exact own step mem

theorem process_first_within {events : List StreamEvent} {step : FinishedStep} (within : p.current.isSome)
    (none_yet : p.steps = []) (processed : p.process ctx events = .ok p') (one : p'.steps = [step]) :
    step.messages = (replay_tool_message ctx.execution_tools p.replay).toList ++
      to_response_messages ctx.tools step.content := by
  induction events generalizing p with
  | nil =>
    cases processed
    rw [none_yet] at one
    cases one
  | cons event _ ih =>
    rw [process_cons] at processed
    obtain ⟨_,handled,later⟩ := Result.bind_ok.mp processed
    by_cases finishes : ∃ reason, event = .FinishStep reason
    · obtain ⟨reason,rfl⟩ := finishes
      obtain ⟨_,_,steps⟩ := handle_finish handled
      obtain ⟨_,grown,_⟩ := process_later (by simp [steps]) later
      rw [one,steps,none_yet] at grown
      obtain ⟨rfl,_⟩ := List.cons.inj grown
      rfl
    · obtain ⟨inside,replay,steps⟩ := handle_within within (fun reason same => finishes ⟨reason,same⟩) handled
      rw [← replay]
      exact ih inside (steps.trans none_yet) later

theorem process_first {events : List StreamEvent} {step : FinishedStep} (outside : p.current = none)
    (none_yet : p.steps = []) (processed : p.process ctx events = .ok p') (one : p'.steps = [step]) :
    step.messages = (replay_tool_message ctx.execution_tools (p.replay ++ replayed events)).toList ++
      to_response_messages ctx.tools step.content := by
  induction events generalizing p with
  | nil =>
    cases processed
    rw [none_yet] at one
    cases one
  | cons event _ ih =>
    rw [process_cons] at processed
    obtain ⟨_,handled,later⟩ := Result.bind_ok.mp processed
    by_cases starts : ∃ warnings, event = .StartStep warnings
    · obtain ⟨warnings,rfl⟩ := starts
      cases handled
      have messages := process_first_within (p := ⟨p.replay,p.steps,some (.new warnings)⟩) rfl none_yet later one
      simpa [replayed] using messages
    · have stays : ∀ warnings, event ≠ .StartStep warnings := fun warnings same => starts ⟨warnings,same⟩
      obtain ⟨still,replay,steps⟩ := handle_outside outside stays handled
      have messages := ih still (steps.trans none_yet) later
      rw [replay,List.append_assoc] at messages
      rw [replayed]
      · exact messages
      · exact stays

end

end Ferrin.StreamText
