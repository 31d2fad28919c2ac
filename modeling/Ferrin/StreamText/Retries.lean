import Ferrin.StreamText.Reading

/-!
A retried attempt leaves no trace: what the step shows, and what its model call
comes to, is that of the last attempt alone (`retried_attempts`).
-/
namespace Ferrin.StreamText
open Ferrin.GenerateText List Attempt
open Result (bind_ok)
open Prod (ext mk)

variable {sent : List StreamEvent} {result : ModelCallEnd}

section
variable {ctx : LoopContext} {inputs : StepInputs} {stream : StreamConfig}

/-! ### Beginning to read -/

def Begins (ctx : LoopContext) (a : Attempt) (pending_boundary : Bool) : Prop :=
  (pending_boundary = false ∧ Idle a) ∨ (pending_boundary = true ∧ ∃ shown, Between ctx a shown)

theorem begins_new (used_ids : List PartId) : Begins ctx (.new used_ids) false := .inl ⟨rfl,⟨rfl,rfl,rfl⟩⟩

variable {a b : Attempt} {part : StreamPart} {possible pending_boundary last_boundary : Bool}
  {parts : List StreamPart} {discarded : List (List StreamPart)}
  {view : List StepContent × Except Error AttemptOutcome}

theorem read_attempt_starts {rest : List StreamPart} (idle : a.started_step = false)
    (other : ∀ warnings, part ≠ .StreamStart warnings) : a.read_attempt ctx inputs stream false (part :: rest) =
      a.emit_start_step.read_attempt ctx inputs stream false (part :: rest) := by
  have started : a.emit_start_step.started_step = true := rfl
  cases part with
  | StreamStart warnings => exact absurd rfl (other warnings)
  | Error | Finish =>
    rw [read_attempt,read_attempt]
    simp only [Bool.false_eq_true,if_false,idle,started,if_true]
  | _ =>
    rw [read_attempt_part started rfl,read_attempt] <;> simp [idle]
    all_goals rfl

theorem Idle.live (idle : Idle a) :
    Live ctx possible a.emit_start_step .start (.new a.state.warnings) (.new a.state.warnings) := by
  have sent : a.emit_start_step.sent = [.StartStep a.state.warnings] := by
    show a.sent ++ _ = _
    rw [idle.sent]
    rfl
  refine live_start idle.state ?_ ?_ ?_ ?_ ?_ rfl
  · rw [sent]
    rfl
  · rw [sent]
    intro before attempt warnings after split
    rcases List.singleton_eq_append_iff.mp split with ⟨rfl,same⟩ | ⟨rfl,same⟩ <;> cases same
  · rw [sent]
    intro before event after kind id split isStart
    rcases List.singleton_eq_append_iff.mp split with ⟨rfl,same⟩ | ⟨rfl,same⟩ <;> cases same
    cases isStart
  · rw [sent]
    exact nodup_nil
  · rw [sent]
    intro part member
    cases member

theorem read_attempt_idle (parts : List StreamPart) : ∀ {a : Attempt}, Idle a →
    Reads ctx a.sent (a.read_attempt ctx inputs stream false parts).1 (a.read_attempt ctx inputs stream false parts).2
      (View.start.read ctx inputs stream.retries_possible (a.retries stream) parts) := by
  induction parts with
  | nil =>
    intro a idle
    refine .silent idle.sent ?_ _
    obtain ⟨_,_,flushed⟩ := flush_buffer_frame a
    have empty : a.state.buffer = [] := by rw [idle.state]; rfl
    show a.flush_buffer.sent = []
    rw [flushed,empty]
    simpa using idle.sent
  | cons part _ ih =>
    intro a idle
    by_cases isStart : ∃ warnings, part = .StreamStart warnings
    · obtain ⟨warnings,rfl⟩ := isStart
      rw [read_attempt,View.read]
      refine @ih { a with state := { a.state with warnings } } ⟨idle.sent,?_,idle.started_step⟩
      show { a.state with warnings } = _
      rw [idle.state]
    · rw [read_attempt_starts idle.started_step fun warnings same => isStart ⟨warnings,same⟩]
      have live : Live ctx stream.retries_possible a.emit_start_step .start _ _ := idle.live
      exact (read_attempt_live _ live).earlier (.append _ (by simp [isBoundary]))

def boundaryWarnings : List StreamPart → List Warning
  | [] => []
  | part :: _ => Attempt.streamStartWarnings part

theorem read_attempt_boundary (started : a.started_step = true) (parts : List StreamPart) :
    a.read_attempt ctx inputs stream true parts =
      (a.emit_boundary (boundaryWarnings parts)).read_attempt ctx inputs stream false parts := by
  have goesOn : ∀ warnings, (a.emit_boundary warnings).started_step = true := fun _ => started
  cases parts with
  | nil => rfl
  | cons part =>
    cases part with
    | StreamStart | Error | Finish =>
      rw [read_attempt,read_attempt]
      simp only [Bool.false_eq_true,if_false,if_true]
      rfl
    | _ =>
      rw [read_attempt_part (goesOn _) rfl,read_attempt] <;> simp [goesOn]
      rfl

theorem read_attempt_between {shown : StepAccumulator} (between : Between ctx a shown)
    (parts : List StreamPart) : Reads ctx (a.sent ++ [.RetryAttempt a.attempt (boundaryWarnings parts)])
      (a.read_attempt ctx inputs stream true parts).1 (a.read_attempt ctx inputs stream true parts).2
      (View.start.read ctx inputs stream.retries_possible (a.retries stream) parts) := by
  rw [read_attempt_boundary between.started_step]
  have closed : Closed a.sent := by
    intro before event after kind id split isStart
    rcases between.shows.covered before event after kind id split isStart with ended | stillOpen
    · exact .inl ended
    · unfold opened at stillOpen
      rw [between.state] at stillOpen
      cases kind <;> cases stillOpen
  have empty : a.state.buffer = [] := by rw [between.state]; rfl
  have distinct := between.fresh.distinct
  have used := between.fresh.used
  rw [empty,append_nil] at distinct used
  have noStart : [StreamEvent.RetryAttempt a.attempt (boundaryWarnings parts)].filterMap starts = [] := rfl
  have live : Live ctx stream.retries_possible (a.emit_boundary (boundaryWarnings parts)) .start
      (.new (boundaryWarnings parts)) (.new (boundaryWarnings parts)) := by
    refine live_start ?_ ?_ (between.shows.closed.send (.inr closed)) ?_ ?_ ?_ between.started_step
    · show { a.state with warnings := boundaryWarnings parts } = _
      rw [between.state]
      rfl
    · show Processor.new.process ctx (a.sent ++ [_]) = _
      rw [process_append_ok between.shows.sent]
      rfl
    · exact closed.send (fun _ _ impossible => absurd impossible not_false) (fun _ _ isStart => by cases isStart)
    · show ((a.sent ++ [_]).filterMap starts).Nodup
      rwa [filterMap_append,noStart,append_nil]
    · intro part mem
      refine used part ?_
      have mem : part ∈ (a.sent ++ [_]).filterMap starts := mem
      rwa [filterMap_append,noStart,append_nil] at mem
  exact read_attempt_live parts live

def Attempt.announced (a : Attempt) (pending_boundary : Bool) (parts : List StreamPart) : List StreamEvent :=
  if pending_boundary then a.sent ++ [.RetryAttempt a.attempt (boundaryWarnings parts)] else a.sent

theorem Begins.reads (begins : Begins ctx a pending_boundary)
    (parts : List StreamPart) : Reads ctx (a.announced pending_boundary parts)
      (a.read_attempt ctx inputs stream pending_boundary parts).1
      (a.read_attempt ctx inputs stream pending_boundary parts).2
      (View.start.read ctx inputs stream.retries_possible (a.retries stream) parts) := by
  rcases begins with ⟨rfl,idle⟩ | ⟨rfl,_,between⟩
  · exact read_attempt_idle parts idle
  · exact read_attempt_between between parts

theorem announced_boundaries (a : Attempt) (pending_boundary : Bool) (parts : List StreamPart) :
    (a.announced pending_boundary parts).countP isBoundary = a.sent.countP isBoundary + pending_boundary.toNat := by
  cases pending_boundary <;> simp [announced,isBoundary]

theorem Begins.next (begins : Begins ctx a pending_boundary)
    (discarded : a.read_attempt ctx inputs stream pending_boundary parts = (b,.ok .Retry)) :
    Begins ctx { b with state := .new } true ∧
      b.sent.countP isBoundary = a.sent.countP isBoundary + pending_boundary.toNat := by
  have reads := @Begins.reads ctx inputs stream a pending_boundary begins parts
  rw [discarded] at reads
  generalize View.read ctx inputs stream.retries_possible (a.retries stream) .start parts = view at reads
  generalize isRetry : Except.ok AttemptOutcome.Retry = outcome at reads
  cases reads with
  | retried shown grows between =>
    exact ⟨.inr ⟨rfl,shown,between⟩,grows.2.trans (announced_boundaries a pending_boundary parts)⟩
  | settled _ _ _ result => cases result <;> cases isRetry
  | silent => cases isRetry

theorem map_part_frame {a' : Attempt} {events : List StreamEvent}
    (mapped : a.map_part ctx inputs stream part = .ok (a',events)) : Frame a a' := by
  have updates : ∀ {kind id delta metadata isEnd b mapped}, a.update_part kind id delta metadata isEnd = .ok (b,mapped) →
      Frame a b := by
    intro kind id delta metadata isEnd b mapped done
    unfold update_part at done
    split at done <;> cases done
    exact ⟨rfl,rfl,rfl,rfl,rfl,rfl,rfl,rfl⟩
  cases part <;> simp only [map_part] at mapped
  case TextDelta | TextEnd | ReasoningDelta | ReasoningEnd =>
    obtain ⟨⟨b,_⟩,updated,done⟩ := bind_ok.mp mapped
    cases done
    exact updates updated
  case ToolCall call =>
    cases decided : decision ctx inputs (parse_tool_call inputs.parse call) with
    | error =>
      rw [map_tool_call_error decided] at mapped
      cases mapped
    | ok =>
      rw [map_tool_call_ok decided] at mapped
      cases mapped
      exact ⟨rfl,rfl,rfl,rfl,rfl,rfl,rfl,rfl⟩
  case ToolApprovalRequest =>
    split at mapped <;> cases mapped
    exact ⟨rfl,rfl,rfl,rfl,rfl,rfl,rfl,rfl⟩
  all_goals
    cases mapped
    exact ⟨rfl,rfl,rfl,rfl,rfl,rfl,rfl,rfl⟩

theorem emit_counters (possible : Bool) (events : List StreamEvent) : ∀ a : Attempt,
    (events.foldl (Attempt.emit possible) a).automatic_retries = a.automatic_retries ∧
    (events.foldl (Attempt.emit possible) a).callback_retries = a.callback_retries := by
  induction events with
  | nil => intro a; exact ⟨rfl,rfl⟩
  | cons event _ ih =>
    intro a
    have later := ih (a.emit possible event)
    rw [foldl_cons,later.1,later.2]
    unfold emit
    split_ifs <;> exact ⟨rfl,rfl⟩

theorem read_attempt_retry (parts : List StreamPart) : ∀ {a b : Attempt} {pending_boundary : Bool},
    a.read_attempt ctx inputs stream pending_boundary parts = (b,.ok .Retry) → ∃ c error,
      c.automatic_retries = a.automatic_retries ∧ c.callback_retries = a.callback_retries ∧
      Attempt.handle_stream_error stream c error = (b,.ok .Retry) := by
  induction parts with
  | nil => intro a b pending_boundary done; cases (mk.inj done).2
  | cons part _ ih =>
    intro a b pending_boundary done
    have boundary : ∀ c : Attempt, c = (if pending_boundary = true then
        a.emit_boundary (streamStartWarnings part) else a) →
        c.automatic_retries = a.automatic_retries ∧ c.callback_retries = a.callback_retries := by
      rintro c rfl
      split_ifs <;> exact ⟨rfl,rfl⟩
    have begun : ∀ c d : Attempt, c = (if pending_boundary = true then
        a.emit_boundary (streamStartWarnings part) else a) →
        d = (if c.started_step = true then c else c.emit_start_step) →
        d.automatic_retries = a.automatic_retries ∧ d.callback_retries = a.callback_retries := by
      rintro c d same rfl
      split_ifs <;> exact boundary c same
    cases part with
    | StreamStart =>
      rw [read_attempt] at done
      obtain ⟨e,error,automatic,callback,handled⟩ := ih done
      have same := boundary _ rfl
      exact ⟨e,error,automatic.trans same.1,callback.trans same.2,handled⟩
    | Error error =>
      rw [read_attempt] at done
      have same := begun _ _ rfl rfl
      exact ⟨_,error,same.1,same.2,done⟩
    | Finish finish_reason =>
      rw [read_attempt] at done
      have outcome := (mk.inj done).2
      generalize finish inputs _ finish_reason = result at outcome
      cases result <;> cases outcome
    | _ =>
      rw [read_attempt] at done
      · split at done
        · cases (mk.inj done).2
        · next next events mapped =>
          obtain ⟨e,error,automatic,callback,handled⟩ := ih done
          have same := begun _ _ rfl rfl
          have kept := map_part_frame mapped
          have emitted := emit_counters stream.retries_possible events next
          exact ⟨e,error,automatic.trans (emitted.1.trans (kept.automatic_retries.trans same.1)),
            callback.trans (emitted.2.trans (kept.callback_retries.trans same.2)),handled⟩
      all_goals simp

/-- The retries of a step: as many as configured, and one more that the callback asks for. -/
def StreamConfig.allowed (stream : StreamConfig) : Nat :=
  stream.stream_retries.getD 0 + if stream.on_error.isSome then 1 else 0

/-- Counters that stay within what is configured. -/
structure Within (stream : StreamConfig) (a : Attempt) : Prop where
  automatic : a.automatic_retries ≤ stream.stream_retries.getD 0
  callback : a.callback_retries ≤ if stream.on_error.isSome then 1 else 0

theorem Within.retry {error : StreamError} (within : Within stream a)
    (retried : a.handle_stream_error stream error = (b,.ok .Retry)) :
    Within stream b ∧ b.automatic_retries + b.callback_retries = a.automatic_retries + a.callback_retries + 1 := by
  have closing : ∀ c : Attempt, c.close_open_parts.automatic_retries = c.automatic_retries ∧
      c.close_open_parts.callback_retries = c.callback_retries := by
    intro c
    unfold close_open_parts
    rw [send_all_frame]
    exact ⟨rfl,rfl⟩
  unfold handle_stream_error at retried
  split_ifs at retried with allowed automatic
  · obtain rfl := (mk.inj retried).1
    obtain ⟨_,configured,room⟩ := (Option.any_eq_true _ _).mp automatic
    refine ⟨⟨?_,?_⟩,?_⟩
    · show (close_open_parts _).automatic_retries ≤ _
      rw [(closing _).1,configured]
      exact of_decide_eq_true room
    · show (close_open_parts _).callback_retries ≤ _
      rw [(closing _).2]
      exact within.callback
    · show (close_open_parts _).automatic_retries + (close_open_parts _).callback_retries = _
      rw [(closing _).1,(closing _).2]
      dsimp only
      omega
  · obtain rfl := (mk.inj retried).1
    have asked : a.callback_retry stream error = true := by
      simpa [automatic] using allowed
    unfold callback_retry at asked
    simp only [Bool.and_eq_true,decide_eq_true_eq] at asked
    refine ⟨⟨?_,?_⟩,?_⟩
    · show (close_open_parts _).automatic_retries ≤ _
      rw [(closing _).1]
      exact within.automatic
    · show (close_open_parts _).callback_retries ≤ _
      rw [(closing _).2,if_pos asked.1.1.2]
      have first := asked.2
      dsimp only
      omega
    · show (close_open_parts _).automatic_retries + (close_open_parts _).callback_retries = _
      rw [(closing _).1,(closing _).2]
      dsimp only
      omega
  · cases (mk.inj retried).2

/-! ### The attempts of a step -/

def discards : Except Error AttemptOutcome → Bool
  | .ok .Retry => true
  | _ => false

theorem discards_iff {outcome : Except Error AttemptOutcome} : discards outcome = true ↔ outcome = .ok .Retry := by
  rcases outcome with _ | _ | _ <;> simp [discards]

variable (ctx inputs stream) in
inductive Retried : Attempt → Bool → List (List StreamPart) → Attempt → Bool → Prop where
  | none (a : Attempt) (pending_boundary : Bool) : Retried a pending_boundary [] a pending_boundary
  | retry {a b c : Attempt} {pending_boundary last_boundary : Bool} {parts : List StreamPart}
      {later : List (List StreamPart)}
      (discarded : a.read_attempt ctx inputs stream pending_boundary parts = (b,.ok .Retry))
      (rest : Retried { b with state := .new } true later c last_boundary) :
      Retried a pending_boundary (parts :: later) c last_boundary

theorem Retried.single (discarded : (a.read_attempt ctx inputs stream pending_boundary parts).2 = .ok .Retry) :
    Retried ctx inputs stream a pending_boundary [parts]
      { (a.read_attempt ctx inputs stream pending_boundary parts).1 with state := .new } true :=
  .retry (ext rfl discarded) (.none _ _)

/-- The same attempt as if it were the first of its step, with these ids in use. -/
def Attempt.afresh (a : Attempt) (used_ids : List PartId) : Attempt :=
  { Attempt.new used_ids with
    attempt := a.attempt,automatic_retries := a.automatic_retries,callback_retries := a.callback_retries }

def Processor.step_content (p : Processor) : List StepContent := (p.current.map (·.content)).getD []

section
variable (retried : Retried ctx inputs stream a pending_boundary discarded b last_boundary)
include retried

theorem Retried.begins
    (begins : Begins ctx a pending_boundary) : Begins ctx b last_boundary ∧
      b.sent.countP isBoundary + last_boundary.toNat =
        a.sent.countP isBoundary + pending_boundary.toNat + discarded.length := by
  induction retried with
  | none => exact ⟨begins,rfl⟩
  | retry discarded _ ih =>
    obtain ⟨next,count⟩ := begins.next discarded
    obtain ⟨last,total⟩ := ih next
    refine ⟨last,?_⟩
    rw [total,length_cons]
    show countP isBoundary _ + _ + _ = _
    rw [count]
    simp only [Bool.toNat_true]
    omega

theorem Retried.within
   (within : Within stream a) :
    Within stream b ∧
      b.automatic_retries + b.callback_retries = a.automatic_retries + a.callback_retries + discarded.length := by
  induction retried with
  | none => exact ⟨within,rfl⟩
  | retry discarded _ ih =>
    obtain ⟨c,_,automatic,callback,handled⟩ := read_attempt_retry _ discarded
    obtain ⟨next,_⟩ := Within.retry ⟨automatic.le.trans within.automatic,callback.le.trans within.callback⟩ handled
    obtain ⟨last,total⟩ := ih ⟨next.automatic,next.callback⟩
    refine ⟨last,?_⟩
    rw [total,length_cons]
    dsimp only
    omega

theorem read_discarded
    (streams : List (List StreamPart)) : a.read ctx inputs stream pending_boundary (discarded ++ streams) =
      b.read ctx inputs stream last_boundary streams := by
  induction retried with
  | none => rfl
  | retry discarded _ ih =>
    rw [cons_append,Attempt.read,discarded]
    exact ih

end

def AttemptOutcome.call : AttemptOutcome → Except Error ModelCallEnd
  | .Finished result => .ok result
  | .Retry => .error (.Other "the model call failed")

theorem read_last {outcome : Except Error AttemptOutcome} (later : List (List StreamPart))
    (read : a.read_attempt ctx inputs stream pending_boundary parts = (b,outcome)) (final : outcome ≠ .ok .Retry) :
    a.read ctx inputs stream pending_boundary (parts :: later) = (b,outcome >>= AttemptOutcome.call) := by
  rw [Attempt.read,read]
  cases outcome with
  | error => rfl
  | ok outcome =>
    cases outcome with
    | Finished => rfl
    | Retry => exact absurd rfl final

theorem Reads.outcome {outcome : Except Error AttemptOutcome} (reads : Reads ctx sent b outcome view) :
    outcome = view.2 := by
  cases reads <;> rfl

theorem Reads.shown {outcome : Except Error AttemptOutcome} (reads : Reads ctx sent b outcome view)
    (final : outcome ≠ .ok .Retry) : Grows sent b.sent ∧ RetriesClosed b.sent ∧
      ∃ p, Processor.new.process ctx b.sent = .ok p ∧ p.step_content = view.1 := by
  cases reads with
  | retried => exact absurd rfl final
  | settled _ grows shows => exact ⟨grows,shows.closed,_,shows.sent,rfl⟩
  | silent before nothing =>
    refine ⟨by rw [before,nothing]; exact .refl _,?_,.new,?_,rfl⟩
    · rw [nothing]
      intro before attempt warnings after split
      cases before <;> cases split
    · rw [nothing]
      rfl

theorem Assembly.step_calls {s t : Assembly} (stepped : s.step ctx inputs part = .ok t) :
    ∀ call ∈ t.calls, call ∈ s.calls ∨ ∃ source, part = .ToolCall source ∧ parse_tool_call inputs.parse source = call := by
  intro call mem
  cases part <;> simp only [Assembly.step] at stepped
  case TextDelta | TextEnd | ReasoningDelta | ReasoningEnd =>
    unfold Assembly.update_part at stepped
    split at stepped <;> cases stepped
    exact .inl mem
  case ToolCall source =>
    obtain ⟨_,-,stepped⟩ := bind_ok.mp stepped
    cases stepped
    rcases List.mem_append.mp mem with old | new
    · exact .inl old
    · exact .inr ⟨source,rfl,(List.mem_singleton.mp new).symm⟩
  case ToolApprovalRequest =>
    split at stepped <;> cases stepped
    exact .inl mem
  all_goals
    cases stepped
    exact .inl mem

theorem View.read_finished {retries : StreamError → Bool}
    (parts : List StreamPart) : ∀ {v : View}, v.assembly.Kept ctx inputs →
    (v.read ctx inputs possible retries parts).2 = .ok (.Finished result) →
    ∃ (t : Assembly) (finish_reason : FinishReason), t.Kept ctx inputs ∧
      (v.read ctx inputs possible retries parts).1 = t.content ∧ t.finish inputs finish_reason = .ok result ∧
      ∀ call ∈ t.calls, call ∈ v.assembly.calls ∨
        ∃ source, StreamPart.ToolCall source ∈ parts ∧ parse_tool_call inputs.parse source = call := by
  induction parts with
  | nil => intro v _ finished; cases finished
  | cons part _ ih =>
    intro v kept finished
    cases control : isControl part with
    | false =>
      rw [View.read_part control] at finished ⊢
      cases stepped : v.step ctx inputs possible part with
      | error =>
        rw [stepped] at finished
        cases finished
      | ok =>
        rw [stepped] at finished
        obtain ⟨s,assembled,same⟩ := bind_ok.mp stepped
        cases same
        obtain ⟨t,finish_reason,keptT,shown,finish,calls⟩ := ih (kept.after_step assembled) finished
        refine ⟨t,finish_reason,keptT,shown,finish,fun call mem => ?_⟩
        rcases calls call mem with earlier | ⟨source,present,parsed⟩
        · rcases Assembly.step_calls assembled call earlier with old | ⟨source,rfl,parsed⟩
          · exact .inl old
          · exact .inr ⟨source,mem_cons_self,parsed⟩
        · exact .inr ⟨source,mem_cons_of_mem _ present,parsed⟩
    | true =>
      cases part with
      | StreamStart =>
        obtain ⟨t,finish_reason,keptT,shown,finish,calls⟩ := ih kept finished
        refine ⟨t,finish_reason,keptT,shown,finish,fun call mem => ?_⟩
        exact (calls call mem).imp_right fun ⟨source,present,parsed⟩ =>
          ⟨source,mem_cons_of_mem _ present,parsed⟩
      | Error =>
        rw [View.read] at finished
        split_ifs at finished
        cases finished
      | Finish finish_reason =>
        rw [View.read] at finished ⊢
        refine ⟨v.assembly,finish_reason,kept,rfl,?_,fun call mem => .inl mem⟩
        cases done : v.assembly.finish inputs finish_reason with
        | error => rw [done] at finished; cases finished
        | ok => rw [done] at finished; cases finished; rfl
      | _ => cases control

end

section
variable {ctx : LoopContext} {inputs : StepInputs} {stage : StageContext} {last : List StreamPart}

theorem finish_step_executed {pending_deferred : Finset ToolCallId}
    {r : StepResult} {call : ParsedToolCall} (done : finish_step ctx inputs stage pending_deferred sent result = .ok r)
    (mem : call ∈ r.executed) : call ∈ result.queued := by
  obtain ⟨_,-,done⟩ := bind_ok.mp done
  obtain ⟨p,-,done⟩ := bind_ok.mp done
  split at done <;> cases done
  dsimp only at mem
  split_ifs at mem
  · rw [tasks_calls] at mem
    exact mem_of_mem_filter mem
  · cases mem

/-- A step whose attempts but the last are discarded shows the content of the last attempt, as if it were the first,
and comes to the same outcome. Only calls of the last attempt are run. At every retry, whatever was opened before is
closed. There are as many retries as configured, and at most one more that the error callback asks for. -/
theorem retried_attempts {discarded : List (List StreamPart)} {a : Attempt} {pending_boundary : Bool}
    (retried : Retried ctx inputs stage.stream (.new stage.used_part_ids) false discarded a pending_boundary)
    (final : (a.read_attempt ctx inputs stage.stream pending_boundary last).2 ≠ .ok .Retry)
    (later : List (List StreamPart)) (used_ids : List PartId) (pending_deferred : Finset ToolCallId) :
    let run := (Attempt.new stage.used_part_ids).read ctx inputs stage.stream false (discarded ++ last :: later)
    let alone := (a.afresh used_ids).read ctx inputs stage.stream false [last]
    (∃ p q, Processor.new.process ctx run.1.sent = .ok p ∧ Processor.new.process ctx alone.1.sent = .ok q ∧
      p.step_content = q.step_content ∧ run.2 = alone.2) ∧
    (∀ r, stream_step ctx inputs stage pending_deferred (discarded ++ last :: later) = .ok r →
      ∀ call ∈ r.executed, ∃ source, StreamPart.ToolCall source ∈ last ∧ parse_tool_call inputs.parse source = call) ∧
    (RetriesClosed run.1.sent ∧ run.1.sent.countP isBoundary = discarded.length) ∧
    discarded.length ≤ stage.stream.allowed := by
  intro run alone
  obtain ⟨begins,boundaries⟩ := retried.begins (begins_new stage.used_part_ids)
  have here : Reads ctx _ _ _ (View.start.read ctx inputs stage.stream.retries_possible (a.retries stage.stream) last) :=
    begins.reads last
  have fresh : Begins ctx (a.afresh used_ids) false := .inl ⟨rfl,⟨rfl,rfl,rfl⟩⟩
  have there : Reads ctx _ _ _ (View.start.read ctx inputs stage.stream.retries_possible (a.retries stage.stream) last) :=
    fresh.reads last
  have same := here.outcome.trans there.outcome.symm
  have finalAlone := same ▸ final
  have isRun : run = _ := (read_discarded retried (last :: later)).trans (read_last later rfl final)
  have isAlone : alone = _ := read_last [] rfl finalAlone
  obtain ⟨grows,closed,p,shownP,contentP⟩ := here.shown final
  obtain ⟨-,-,q,shownQ,contentQ⟩ := there.shown finalAlone
  refine ⟨⟨p,q,?_,?_,contentP.trans contentQ.symm,?_⟩,?_,⟨?_,?_⟩,?_⟩
  · rw [isRun]
    exact shownP
  · rw [isAlone]
    exact shownQ
  · rw [isRun,isAlone]
    exact congrArg (· >>= AttemptOutcome.call) same
  · intro r done call member
    unfold stream_step at done
    rw [show Attempt.read ctx inputs stage.stream _ false _ = _ from isRun] at done
    split at done
    · cases done
    · next attempt result outcome =>
      obtain ⟨finished,settled,isResult⟩ := bind_ok.mp (mk.inj outcome).2
      cases finished with
      | Retry => cases isResult
      | Finished other =>
        cases isResult
        have finished := here.outcome.symm.trans settled
        obtain ⟨t,finish_reason,kept,-,finish,calls⟩ := View.read_finished last Assembly.kept_start finished
        obtain ⟨_,-,isFinish⟩ := bind_ok.mp finish
        have queued : call ∈ t.queued := by
          have queued : call ∈ result.queued := finish_step_executed done member
          rw [← Except.ok.inj isFinish] at queued
          exact queued
        rw [kept.queued] at queued
        rcases calls call (mem_of_mem_filter queued) with nothing | source
        · cases nothing
        · exact source
  · rw [isRun]
    exact closed
  · rw [isRun]
    have count := grows.2.trans (announced_boundaries a pending_boundary last)
    rw [boundaries] at count
    simpa [new] using count
  · obtain ⟨within,count⟩ := retried.within ⟨Nat.zero_le _,Nat.zero_le _⟩
    have count : a.automatic_retries + a.callback_retries = discarded.length := by simpa [new] using count
    have automatic := within.automatic
    have callback := within.callback
    unfold StreamConfig.allowed
    omega

end

/-- A first attempt that opens text and queues a call, and fails; a second one that only speaks. -/
theorem retried_attempts_twice :
    let ctx := LoopContext.plain [("search",plainTool .null)] none
    let inputs := StepInputs.plain [("search",plainTool .null)]
    let stage : StageContext := ⟨⟨false,some 1,none⟩,.inOrder,fun _ => 0,[]⟩
    let first : List StreamPart := [.StreamStart [],.TextStart "t" none,.TextDelta "t" "lost" none,
      .ToolCall (.new "c" "search" ""),.Error (.new "overloaded")]
    let last : List StreamPart := [.StreamStart [],.TextStart "u" none,.TextDelta "u" "kept" none,.TextEnd "u" none,
      .Finish (.new .Stop) .default none]
    let sent := ((new stage.used_part_ids).read ctx inputs stage.stream false ([first] ++ [last])).1.sent
    RetriesClosed sent ∧ sent.countP isBoundary = 1 := by
  intro ctx inputs stage first last sent
  have closed : ∀ a, Retried ctx inputs stage.stream (.new stage.used_part_ids) false [first] a true →
      discards (a.read_attempt ctx inputs stage.stream true last).2 = false →
      RetriesClosed sent ∧ sent.countP isBoundary = [first].length := by
    intro a retried final
    have settled : (a.read_attempt ctx inputs stage.stream true last).2 ≠ .ok .Retry := by
      intro retry
      rw [retry] at final
      cases final
    obtain ⟨-,-,closed,-⟩ := @retried_attempts ctx inputs stage last [first] a true retried settled [] [] ∅
    exact closed
  exact closed _ (.single (discards_iff.mp (by decide))) (by decide)

/-- The callback asks for one more attempt than the stream retries, which are none, allow. -/
theorem retried_beyond_stream_retries : ∃ (ctx : LoopContext) (inputs : StepInputs) (stream : StreamConfig)
    (discarded : List (List StreamPart)) (a : Attempt), Retried ctx inputs stream (.new []) false discarded a true ∧
      ¬ discarded.length ≤ stream.stream_retries.getD 0 := by
  refine ⟨.plain [] none,.plain [],⟨false,some 0,some fun _ _ => .Retry⟩,[[.Error (.new "overloaded")]],_,
    .single (discards_iff.mp ?_),?_⟩
  · decide
  · decide

end Ferrin.StreamText
