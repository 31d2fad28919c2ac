import Ferrin.StreamText.Loop

/-!
The accounting of response messages holds in both loops; in the streamed one as
long as the transforms pass on what the replay sends (`response_messages_account`).
-/
namespace Ferrin.StreamText
open Ferrin.GenerateText List
open Result (bind_error bind_ok exists_ok toOption_any)
open Stage (start)

/-! ### The outputs of a replay -/

variable {p : Processor}

section
variable {ctx : LoopContext}

variable {environment : ToolEnvironment} {messages : List Message} {content : StepContent}
  {duration_ms : ToolCallId → Nat} {contents : List StepContent} {p' : Processor} {events : List StreamEvent}

theorem replay_approval_final {approval : Ferrin.Approval.ToolApproval}
    (done : replay_approval ctx environment messages approval = .ok (.Output content)) : isPreliminary content = false := by
  unfold replay_approval at done
  split at done
  · cases done
  · obtain ⟨_,_,done⟩ := bind_ok.mp done
    dsimp only at done
    split at done
    · cases done
      rfl
    · obtain ⟨_,_,done⟩ := bind_ok.mp done
      split at done <;> cases done

theorem plan_replay_final {plan : ReplayPlan}
    (planned : plan_replay ctx environment messages = .ok plan) : ∀ content ∈ plan.outputs, isPreliminary content = false := by
  obtain ⟨_,_,planned⟩ := bind_ok.mp planned
  obtain ⟨_,_,planned⟩ := bind_ok.mp planned
  refine Result.foldlM_invariant (P := fun plan => ∀ content ∈ plan.outputs, isPreliminary content = false)
    (fun plan approval _ next final step => ?_) (fun content mem => by cases mem) planned
  obtain ⟨replayed,came,step⟩ := bind_ok.mp step
  cases step
  cases replayed with
  | Skipped | Denied | Execute => exact final
  | Output =>
    intro other mem
    rcases List.mem_append.mp mem with mem | mem
    · exact final other mem
    · rw [List.mem_singleton.mp mem]
      exact replay_approval_final came

theorem replay_approvals_final {replay : List StepContent}
    (done : replay_approvals ctx environment duration_ms messages = .ok replay) :
    ∀ content ∈ replay, isPreliminary content = false := by
  obtain ⟨_,planned,done⟩ := bind_ok.mp done
  obtain ⟨_,ran,done⟩ := bind_ok.mp done
  cases done
  intro content mem
  rcases List.mem_append.mp mem with mem | denied
  · rcases List.mem_append.mp mem with planned_output | executed
    · exact plan_replay_final planned content planned_output
    · obtain ⟨_,_,finished⟩ := Result.each_right (Result.mapM_ok.mp ran) executed
      obtain ⟨_,_,ran⟩ := bind_ok.mp finished
      exact (run_tool_call_final ran).1
  · obtain ⟨_,_,rfl⟩ := List.mem_map.mp denied
    rfl

theorem content_event_pushed {event : StreamEvent} (shows : content_event content = some event) :
    pushed event = (if isPreliminary content then none else some content) ∧ ∀ warnings, event ≠ .StartStep warnings := by
  cases content <;> simp only [content_event,reduceCtorEq,Option.some.injEq] at shows <;> subst shows
  all_goals exact ⟨rfl,fun warnings same => by cases same⟩

theorem replayed_contents {later : List StreamEvent} (silent : replayed later = []) :
    replayed (contents.filterMap content_event ++ later) =
      contents.filter fun content => (content_event content).isSome && !isPreliminary content := by
  induction contents with
  | nil => simpa using silent
  | cons content _ ih =>
    cases shows : content_event content with
    | none =>
      rw [filterMap_cons_none shows,filter_cons_of_neg (by simp [shows])]
      exact ih
    | some =>
      obtain ⟨pushes,stays⟩ := content_event_pushed shows
      rw [filterMap_cons_some shows,cons_append,replayed,pushes,ih]
      · cases preliminary : isPreliminary content with
        | true => rw [filter_cons_of_neg (by simp [preliminary])]; rfl
        | false => rw [filter_cons_of_pos (by simp [shows,preliminary])]; rfl
      · exact stays

theorem replay_tool_message_sent {tools : ToolSet} (final : ∀ content ∈ contents, isPreliminary content = false) :
    replay_tool_message tools (contents.filter fun content => (content_event content).isSome && !isPreliminary content) =
      replay_tool_message tools contents := by
  have same : contents.filter (fun content => (content_event content).isSome && !isPreliminary content) =
      contents.filter fun content => (content_event content).isSome :=
    filter_congr fun content mem => by simp [final content mem]
  rw [same]
  unfold replay_tool_message
  rw [filterMap_filter]
  refine congrArg (fun parts : List ToolPart => if parts = [] then none else some (Message.tool parts)) ?_
  refine filterMap_congr fun content _ => ?_
  cases content <;> rfl

/-- The transforms pass the replay on: whatever the first step sends, the consumer makes the message of the stage
    from what is released before the step. -/
def PassesReplay (ctx : LoopContext) (transform : StreamTransform) (replay : List StepContent) : Prop :=
  ∀ later, replayed later = [] →
    replay_tool_message ctx.execution_tools (replayed (transform [] (replay.filterMap content_event ++ later))) =
      replay_tool_message ctx.execution_tools replay

theorem passes_replay_none
    {replay : List StepContent} (done : replay_approvals ctx environment duration_ms messages = .ok replay) :
    PassesReplay ctx .none replay := by
  intro later silent
  rw [StreamTransform.none,replayed_contents silent,replay_tool_message_sent (replay_approvals_final done)]

theorem process_replay (processed : p.process ctx events = .ok p') : p.replay <+: p'.replay := by
  induction events generalizing p with
  | nil =>
    cases processed
    exact prefix_rfl
  | cons _ _ ih =>
    rw [process_cons] at processed
    obtain ⟨_,handled,later⟩ := bind_ok.mp processed
    exact (handle_replay handled).trans (ih later)

theorem replayed_begun (outside : p.current = none)
    (processed : p.process ctx events = .ok p') (within : p'.current.isSome) (nothing : p'.replay = [])
    (more : List StreamEvent) : replayed (events ++ more) = [] := by
  induction events generalizing p with
  | nil =>
    cases processed
    rw [outside] at within
    cases within
  | cons event _ ih =>
    rw [process_cons] at processed
    obtain ⟨next,handled,later⟩ := bind_ok.mp processed
    by_cases starts : ∃ warnings, event = .StartStep warnings
    · obtain ⟨warnings,rfl⟩ := starts
      rfl
    · have stays : ∀ warnings, event ≠ .StartStep warnings := fun warnings same => starts ⟨warnings,same⟩
      obtain ⟨still,replay,_⟩ := handle_outside outside stays handled
      have empty : next.replay = [] := List.prefix_nil.mp (nothing ▸ process_replay later)
      rw [replay] at empty
      rw [cons_append,replayed,(List.append_eq_nil_iff.mp empty).2,ih still later]
      · rfl
      · exact stays

end

def FinishedStep.recorded (step : FinishedStep) : Recorded := ⟨step.content,step.messages⟩

section
variable {ctx : LoopContext} {config : CallConfig} {stage_config : StageConfig} {duration_ms : ToolCallId → Nat}
  {stage next : Stage}

theorem run_step_silent {inputs : StepInputs} {stage_context : StageContext} {pending : Finset ToolCallId}
    {streams : List (List StreamPart)} {step_end : StepEnd}
    (ran : Stage.run_step ctx inputs stage_context pending streams = .ok step_end) : replayed step_end.sent = [] := by
  unfold Stage.run_step at ran
  split at ran
  case h_1 => cases ran
  case h_2 attempt result read =>
    obtain ⟨_,_,ran⟩ := bind_ok.mp ran
    cases ran
    obtain ⟨_,_,_,_,_,processed,_⟩ := read_finished (begins_new stage_context.used_part_ids) read
    rw [append_assoc]
    exact replayed_begun rfl processed rfl rfl _

variable {built : Processor} {released : List StreamEvent} {step : FinishedStep} {transform : StreamTransform}

theorem build_ok (done : Stage.build ctx p released = .ok (built,step)) :
    p.process ctx released = .ok built ∧ built.steps.drop p.steps.length = [step] := by
  obtain ⟨_,processed,done⟩ := bind_ok.mp done
  split at done
  case h_1 one found =>
    cases done
    exact ⟨processed,found⟩
  case h_2 => cases done

structure Stage.Accounts (ctx : LoopContext) (config : CallConfig) (transform : StreamTransform)
    (replay : List StepContent) (stage : Stage) : Prop where
  replayed : stage.replay_message = replay_tool_message ctx.execution_tools replay
  reads : stage.step_state.Reads config.initial_messages stage.response_messages
  built : stage.steps = stage.processor.steps
  begins : stage.steps = [] → stage.sent = [] ∧ stage.buffer = replay.filterMap content_event ∧ stage.processor = .new
  ledger : PassesReplay ctx transform replay → Ledgered ctx.tools (replay_tool_message ctx.execution_tools replay)
    stage.response_messages (stage.steps.map (·.recorded))

theorem Stage.start_accounts {replay : List StepContent}
    (replays : replay_approvals ctx config.environment duration_ms config.initial_messages = .ok replay)
    (started : start ctx config duration_ms = .ok stage) : stage.Accounts ctx config transform replay := by
  rw [start,replays] at started
  cases started
  exact ⟨rfl,StepState.reads_new,rfl,fun _ => ⟨rfl,rfl,rfl⟩,fun _ => .start⟩

theorem build_first {replay : List StepContent} {sent : List StreamEvent}
    (passes : PassesReplay ctx transform replay) (silent : replayed sent = [])
    (done : Stage.build ctx .new (transform [] (replay.filterMap content_event ++ sent)) = .ok (built,step)) :
    built.steps = [step] ∧ step.messages = (replay_tool_message ctx.execution_tools replay).toList ++
      own_messages ctx.tools step.recorded := by
  obtain ⟨processed,one⟩ := build_ok done
  have only : built.steps = [step] := one
  have messages := process_first rfl rfl processed only
  rw [show Processor.new.replay = [] from rfl,nil_append,passes sent silent] at messages
  exact ⟨only,messages⟩

theorem build_later (first : p.steps ≠ []) (done : Stage.build ctx p released = .ok (built,step)) :
    built.steps = p.steps ++ [step] ∧ step.messages = own_messages ctx.tools step.recorded := by
  obtain ⟨processed,one⟩ := build_ok done
  obtain ⟨_,steps,own⟩ := process_later first processed
  rw [steps,drop_left] at one
  rw [one] at steps own
  exact ⟨steps,own step mem_cons_self⟩

theorem build_steps (done : Stage.build ctx p released = .ok (built,step)) : built.steps = p.steps ++ [step] := by
  by_cases first : p.steps = []
  · have one := (build_ok done).2
    rw [first] at one ⊢
    exact one
  · exact (build_later first done).1

theorem Stage.Accounts.turn {replay : List StepContent} {turn : StreamTurn}
    (accounts : stage.Accounts ctx config stage_config.transform replay) (kept : keeps_messages turn.overrides)
    (taken : stage.turn ctx config stage_config turn = .ok next) :
    next.Accounts ctx config stage_config.transform replay := by
  obtain ⟨prepared,ready,taken⟩ := bind_ok.mp taken
  obtain ⟨_,ran,taken⟩ := bind_ok.mp taken
  obtain ⟨⟨_,step⟩,built,taken⟩ := bind_ok.mp taken
  have silent := run_step_silent (fallible_ok.mp ran)
  have built := fallible_ok.mp built
  cases taken
  have reads : prepared.state.Reads config.initial_messages stage.response_messages := by
    cases answer : turn.overrides with
    | error =>
      rw [answer,prepare_step_inputs,accounts.reads.extend] at ready
      cases ready
    | ok overrides =>
      rw [answer] at ready
      exact (accounts.reads.prepare (kept overrides answer) ready).2
  refine ⟨accounts.replayed,reads.grows _,?_,?_,?_⟩
  · rw [build_steps built,accounts.built]
  · intro none_yet
    simp at none_yet
  · intro passes
    rw [map_append,map_singleton]
    have ledger := accounts.ledger passes
    by_cases first : stage.steps = []
    · obtain ⟨unsent,buffered,fresh⟩ := accounts.begins first
      rw [unsent,buffered,fresh] at built
      obtain ⟨_,messages⟩ := build_first passes silent built
      have skipped : step.messages.drop
          (if stage.steps.isEmpty && stage.replay_message.isSome then 1 else 0) = own_messages ctx.tools step.recorded := by
        rw [messages,accounts.replayed,first]
        cases replay_tool_message ctx.execution_tools replay <;> rfl
      rw [skipped]
      refine ledger.step ?_
      rw [first]
      exact messages
    · obtain ⟨_,messages⟩ := build_later (accounts.built ▸ first) built
      have continued : stage.steps.isEmpty = false := by
        simp [first]
      rw [continued,Bool.false_and,if_neg Bool.false_ne_true,drop_zero,messages]
      refine ledger.step ?_
      rw [isEmpty_map,continued]
      exact messages

theorem Stage.run_accounts {turns : List StreamTurn} {replay : List StepContent}
    (replays : replay_approvals ctx config.environment duration_ms config.initial_messages = .ok replay)
    (started : start ctx config duration_ms = .ok stage) (kept : ∀ turn ∈ turns, keeps_messages turn.overrides) :
    (∀ reached, stage.run ctx config stage_config turns = .ok reached →
      reached.Accounts ctx config stage_config.transform replay) ∧
      stage.run ctx config stage_config turns ≠ .error .OutOfRange := by
  have preserved : ∀ s : Stage, ∀ turn ∈ turns, ∀ s' : Stage, s.Accounts ctx config stage_config.transform replay →
      s.turn ctx config stage_config turn = .ok s' → s'.Accounts ctx config stage_config.transform replay :=
    fun s turn mem s' accounts taken => accounts.turn (kept turn mem) taken
  constructor
  · intro reached ran
    exact Ferrin.Runs.loop_invariant preserved (start_accounts replays started) ran
  · intro failed
    obtain ⟨s,_,accounts,_,broke⟩ := Ferrin.Runs.loop_error preserved (start_accounts replays started) failed
    rcases bind_error.mp broke with sliced | ⟨_,_,broke⟩
    · exact accounts.reads.not_out_of_range _ sliced
    rcases bind_error.mp broke with other | ⟨_,_,broke⟩
    · exact fallible_in_range other
    rcases bind_error.mp broke with other | ⟨_,_,broke⟩
    · exact fallible_in_range other
    · cases broke

/-! ### Both loops -/

/-- Wherever a loop gets, the next step is sent the initial messages, then the replay, then the responses of every step
    before; the recorded messages are those accumulated. In the streamed loop the transforms pass the replay on. -/
theorem response_messages_account {replay : List StepContent}
    (replays : replay_approvals ctx config.environment duration_ms config.initial_messages = .ok replay) :
    (∀ loop turns, Loop.start ctx config duration_ms = .ok loop → (∀ turn ∈ turns, keeps_messages turn.overrides) →
      (∀ reached, loop.run ctx config turns = .ok reached →
        Accounted ctx.tools config (replay_tool_message ctx.execution_tools replay) reached.step_state
          reached.response_messages (reached.steps.map (·.recorded))) ∧
      loop.run ctx config turns ≠ .error .OutOfRange) ∧
    (∀ stage_config stage turns, start ctx config duration_ms = .ok stage →
      (∀ turn ∈ turns, keeps_messages turn.overrides) →
      (PassesReplay ctx stage_config.transform replay → ∀ reached,
        stage.run ctx config stage_config turns = .ok reached →
        Accounted ctx.tools config (replay_tool_message ctx.execution_tools replay) reached.step_state
          reached.response_messages (reached.steps.map (·.recorded))) ∧
      stage.run ctx config stage_config turns ≠ .error .OutOfRange) ∧
    PassesReplay ctx .none replay := by
  refine ⟨fun loop turns started kept => ?_,fun stage_config stage turns started kept => ?_,passes_replay_none replays⟩
  · have message : loop.replay_message = replay_tool_message ctx.execution_tools replay := by
      rw [Loop.start,replays] at started
      cases started
      rfl
    obtain ⟨accounts,in_range⟩ := Loop.run_accounts started kept
    rw [message] at accounts
    exact ⟨fun reached ran => (accounts reached ran).accounted,in_range⟩
  · obtain ⟨accounts,in_range⟩ := @Stage.run_accounts ctx config stage_config duration_ms stage turns replay replays
      started kept
    exact ⟨fun passes reached ran => ((accounts reached ran).ledger passes).accounted (accounts reached ran).reads,in_range⟩

end

def purchaseHistory : List Message := [.User (.Text "buy it") none,
  .assistant_parts [.ToolCall ⟨"p","purchase",.object [],false,none⟩,.ToolApprovalRequest ⟨"a","p",none,false,none⟩],
  .tool [.ToolApprovalResponse ⟨"a",true,none,false⟩]]

def purchaseTools : ToolSet := [("purchase",plainTool (.string "bought"))]

/-- The model purchases once more. -/
def purchasesTurn : StreamTurn where
  overrides := .ok .default
  streams := [[.ToolCall (.new "q" "purchase" ""),.Finish (.new .ToolCalls) .default none]]
  schedule := .inOrder
  duration_ms := fun _ => 0
  stop := false

/-- The replayed purchase and the next one are accounted for, also when the transforms leave everything as it is. -/
theorem response_messages_account_purchase :
    let ctx := LoopContext.plain purchaseTools none
    let config := CallConfig.plain purchaseTools purchaseHistory
    ∃ replay stage reached, replay_approvals ctx config.environment (fun _ => 0) config.initial_messages = .ok replay ∧
      start ctx config (fun _ => 0) = .ok stage ∧
      stage.run ctx config ⟨⟨false,none,none⟩,.none⟩ [purchasesTurn] = .ok reached ∧
      Accounted ctx.tools config (replay_tool_message ctx.execution_tools replay) reached.step_state
        reached.response_messages (reached.steps.map FinishedStep.recorded) := by
  intro ctx config
  obtain ⟨replay,replays⟩ := exists_ok (show (replay_approvals ctx config.environment (fun _ => 0)
    config.initial_messages).isOk = true by decide)
  obtain ⟨reached,ran⟩ := exists_ok (show ((start ctx config (fun _ => 0)).bind fun stage =>
    stage.run ctx config ⟨⟨false,none,none⟩,.none⟩ [purchasesTurn]).isOk = true by decide)
  obtain ⟨stage,started,ran⟩ := bind_ok.mp ran
  have kept : ∀ turn ∈ [purchasesTurn], keeps_messages turn.overrides := by
    intro turn member answer same
    rw [List.mem_singleton.mp member] at same
    cases same
    rfl
  obtain ⟨_,accounts,passes⟩ := response_messages_account replays
  exact ⟨replay,stage,reached,replays,started,ran,(accounts _ stage _ started kept).1 passes reached ran⟩

def isStart : StreamEvent → Bool
  | .StartStep _ => true
  | _ => false

def stepsOnly : StreamTransform := fun _ events => events.dropWhile (!isStart ·)

/-- With it the first step is recorded without the replay, and the stage skips its first message all the same: the
    next step is sent the result of a call that it is not sent. -/
theorem loses_first_response : ∃ ctx config stage_config stage reached,
    start ctx config (fun _ => 0) = .ok stage ∧ keeps_messages purchasesTurn.overrides ∧
      stage.run ctx config stage_config [purchasesTurn] = .ok reached ∧
      response_messages (reached.steps.map FinishedStep.recorded) ≠ reached.response_messages ∧
      ∃ prepared, prepare_step_inputs config reached.response_messages (.ok .default) reached.step_state = .ok prepared ∧
        ∃ step ∈ reached.steps, ∃ message ∈ step.messages, message ∉ prepared.inputs.messages := by
  let ctx := LoopContext.plain purchaseTools none
  let config := CallConfig.plain purchaseTools purchaseHistory
  let stage_config : StageConfig := ⟨⟨false,none,none⟩,stepsOnly⟩
  have check : ((start ctx config (fun _ => 0)).toOption.any fun stage =>
      (stage.run ctx config stage_config [purchasesTurn]).toOption.any fun reached =>
        decide (response_messages (reached.steps.map FinishedStep.recorded) ≠ reached.response_messages) &&
        (prepare_step_inputs config reached.response_messages (.ok .default) reached.step_state).toOption.any fun prepared =>
          decide (∃ step ∈ reached.steps, ∃ message ∈ step.messages, message ∉ prepared.inputs.messages)) = true := by
    decide
  obtain ⟨stage,started,check⟩ := toOption_any.mp check
  obtain ⟨reached,ran,check⟩ := toOption_any.mp check
  obtain ⟨differs,check⟩ := (Bool.and_eq_true _ _).mp check
  obtain ⟨prepared,ready,lost⟩ := toOption_any.mp check
  have kept : keeps_messages purchasesTurn.overrides := fun answer same => by cases same; rfl
  exact ⟨ctx,config,stage_config,stage,reached,started,kept,ran,of_decide_eq_true differs,prepared,ready,
    of_decide_eq_true lost⟩

end Ferrin.StreamText
