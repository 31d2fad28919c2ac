import Ferrin.StreamText.Refinement

/-!
What the reading of attempts keeps. The events that were sent build the content
that is shown, the events held back the rest of it; every part that was opened
is closed again, at the latest before the attempt is discarded.
-/
namespace Ferrin.StreamText
open Ferrin.GenerateText List Attempt
open Attempt (emit)
open List (cons mem_append mem_map nodup_append)
open Option (some)

/-! ### Open parts of the event stream -/

def Covered (stillOpen : Kind → PartId → Prop) (events : List StreamEvent) : Prop :=
  ∀ before event after kind id, events = before ++ event :: after → starts event = some (kind,id) →
    (∃ other ∈ after, ends other = some (kind,id)) ∨ stillOpen kind id

def Closed (events : List StreamEvent) : Prop := Covered (fun _ _ => False) events

def RetriesClosed (events : List StreamEvent) : Prop :=
  ∀ before attempt warnings after, events = before ++ .RetryAttempt attempt warnings :: after → Closed before

def isBoundary : StreamEvent → Bool
  | .RetryAttempt .. => true
  | _ => false

/-- More events, but no retry among them. -/
def Grows (sent sent' : List StreamEvent) : Prop := sent <+: sent' ∧ sent'.countP isBoundary = sent.countP isBoundary

theorem Grows.refl (sent : List StreamEvent) : Grows sent sent := ⟨List.prefix_refl sent,rfl⟩

theorem Grows.trans {first second third : List StreamEvent} (one : Grows first second) (two : Grows second third) :
    Grows first third := ⟨one.1.trans two.1,two.2.trans one.2⟩

theorem Grows.append (sent : List StreamEvent) {more : List StreamEvent}
    (quiet : ∀ event ∈ more, isBoundary event = false) : Grows sent (sent ++ more) := by
  have none_ : more.countP isBoundary = 0 := List.countP_eq_zero.mpr fun event mem => by simp [quiet event mem]
  exact ⟨prefix_append _ _,by rw [countP_append,none_]; rfl⟩

theorem inner_quiet {events : List StreamEvent} (inner : ∀ event ∈ events, isInner event = true) :
    ∀ event ∈ events, isBoundary event = false := by
  intro event mem
  have := inner event mem
  cases event <;> first | rfl | cases this

theorem split_snoc {events before after : List StreamEvent} {event last : StreamEvent}
    (split : events ++ [last] = before ++ event :: after) : (after = [] ∧ event = last ∧ before = events) ∨
      ∃ rest, after = rest ++ [last] ∧ events = before ++ event :: rest := by
  rcases eq_nil_or_concat after with rfl | ⟨rest,final,rfl⟩
  · obtain ⟨same,final⟩ := append_inj' split rfl
    exact .inl ⟨rfl,(cons.inj final).1.symm,same.symm⟩
  · rw [concat_eq_append,← cons_append,← append_assoc] at split
    obtain ⟨same,final⟩ := append_inj' split rfl
    obtain rfl := (cons.inj final).1
    exact .inr ⟨rest,by simp,same⟩

theorem Covered.send {p q : Kind → PartId → Prop} {events : List StreamEvent} {event : StreamEvent}
    (covered : Covered p events) (keeps : ∀ kind id, p kind id → ends event ≠ some (kind,id) → q kind id)
    (opens : ∀ kind id, starts event = some (kind,id) → q kind id) : Covered q (events ++ [event]) := by
  intro before start after kind id split isStart
  rcases split_snoc split with ⟨rfl,rfl,rfl⟩ | ⟨rest,rfl,earlier⟩
  · exact .inr (opens kind id isStart)
  · rcases covered before start rest kind id earlier isStart with ⟨other,mem,isEnd⟩ | stillOpen
    · exact .inl ⟨other,mem_append_left _ mem,isEnd⟩
    · by_cases isEnd : ends event = some (kind,id)
      · exact .inl ⟨event,by simp,isEnd⟩
      · exact .inr (keeps kind id stillOpen isEnd)

theorem RetriesClosed.send {events : List StreamEvent} {event : StreamEvent} (closed : RetriesClosed events)
    (boundary : isInner event = true ∨ Closed events) : RetriesClosed (events ++ [event]) := by
  intro before attempt warnings after split
  rcases split_snoc split with ⟨rfl,rfl,rfl⟩ | ⟨rest,rfl,earlier⟩
  · exact boundary.resolve_left (by simp [isInner])
  · exact closed before attempt warnings rest earlier

theorem RetriesClosed.send_all {events more : List StreamEvent} (closed : RetriesClosed events)
    (inner : ∀ event ∈ more, isInner event = true) : RetriesClosed (events ++ more) := by
  induction more generalizing events with
  | nil => simpa using closed
  | cons event _ ih =>
    rw [append_cons]
    exact ih (closed.send (.inl (inner event mem_cons_self)))
      fun other mem => inner other (mem_cons_of_mem event mem)

/-- The places of open parts lead to text or reasoning. -/
def StepAccumulator.Prose (acc : StepAccumulator) : Prop :=
  ∀ kind id index, acc.parts.lookup kind id = some index → (acc.content[index]?).any isProse = true

def Attempt.opened (a : Attempt) : Kind → List PartId
  | .text => a.state.open_text
  | .reasoning => a.state.open_reasoning

structure Shown (ctx : LoopContext) (a : Attempt) (shown : StepAccumulator) : Prop where
  sent : Processor.new.process ctx a.sent = .ok (inStep shown)
  prose : shown.Prose
  distinct : ∀ kind, (a.opened kind).Nodup
  known : ∀ kind id, id ∈ a.opened kind → (shown.parts.lookup kind id).isSome
  begun : ∀ kind id, id ∈ a.opened kind → (kind,id) ∈ a.sent.filterMap starts
  covered : Covered (fun kind id => id ∈ a.opened kind) a.sent
  closed : RetriesClosed a.sent

structure Fresh (a : Attempt) : Prop where
  distinct : ((a.sent ++ a.state.buffer).filterMap starts).Nodup
  used : ∀ part ∈ (a.sent ++ a.state.buffer).filterMap starts, part.2 ∈ a.used_ids

section
variable {ctx : LoopContext} {inputs : StepInputs} {stream : StreamConfig}

theorem Prose.append {acc : StepAccumulator} (prose : acc.Prose) (more : List StepContent) :
    StepAccumulator.Prose { acc with content := acc.content ++ more } :=
  fun kind id index found => prose_append more (prose kind id index found)

theorem Prose.start {acc : StepAccumulator} (prose : acc.Prose) (kind : Kind) (id : PartId)
    (metadata : Option ProviderMetadata) : (acc.start_part kind id metadata).Prose := by
  intro other key index found
  simp only [StepAccumulator.start_part,Open.lookup_put] at found
  split_ifs at found
  · obtain rfl := some.inj found
    exact prose_start acc.content kind metadata
  · exact prose_append _ (prose other key index found)

theorem update_part_ok {acc acc' : StepAccumulator} {kind : Kind} {id : PartId} {delta : Option String}
    {metadata : Option ProviderMetadata} {isEnd : Bool} (done : acc.update_part kind id delta metadata isEnd = .ok acc') :
    (acc.Prose → acc'.Prose) ∧ ∀ other key, acc'.parts.lookup other key =
      if isEnd = true ∧ other = kind ∧ key = id then none else acc.parts.lookup other key := by
  unfold StepAccumulator.update_part at done
  split at done
  · cases done
  · next place found =>
    by_cases isPart : (acc.content[place]?).any isProse = true
    swap
    · rw [if_neg isPart] at done
      cases done
    rw [if_pos isPart] at done
    cases done
    have parts : ∀ other key, (if isEnd = true then acc.parts.remove kind id else acc.parts).lookup other key =
        if isEnd = true ∧ other = kind ∧ key = id then none else acc.parts.lookup other key := by
      intro other key
      cases isEnd <;> simp [Open.lookup_remove]
    refine ⟨fun prose other key index found => ?_,parts⟩
    have before : acc.parts.lookup other key = some index := by
      have := (parts other key).symm.trans found
      split_ifs at this
      exact this
    exact prose_modify place delta metadata (prose other key index before)

theorem handle_inner {acc : StepAccumulator} {p : Processor} {event : StreamEvent} (inner : isInner event = true)
    (handled : (inStep acc).handle ctx event = .ok p) : ∃ acc', p = inStep acc' ∧ (acc.Prose → acc'.Prose) ∧
      ∀ kind id, (starts event = some (kind,id) ∨
        ((acc.parts.lookup kind id).isSome ∧ ends event ≠ some (kind,id))) → (acc'.parts.lookup kind id).isSome := by
  have updates : ∀ {kind id delta metadata isEnd}, (inStep acc).update_part kind id delta metadata isEnd = .ok p →
      starts event = none → (∀ other key, ends event ≠ some (other,key) → ¬ (isEnd = true ∧ other = kind ∧ key = id)) →
      ∃ acc', p = inStep acc' ∧ (acc.Prose → acc'.Prose) ∧
        ∀ kind id, (starts event = some (kind,id) ∨
          ((acc.parts.lookup kind id).isSome ∧ ends event ≠ some (kind,id))) → (acc'.parts.lookup kind id).isSome := by
    intro kind id delta metadata isEnd done noStart remains
    obtain ⟨_,current,done⟩ := Result.bind_ok.mp done
    cases current
    obtain ⟨acc',updated,done⟩ := Result.bind_ok.mp done
    cases done
    obtain ⟨prose,parts⟩ := update_part_ok updated
    refine ⟨acc',rfl,prose,fun other key known => ?_⟩
    rcases known with isStart | ⟨known,stays⟩
    · rw [noStart] at isStart
      cases isStart
    · rw [parts,if_neg (remains other key stays)]
      exact known
  have pushes : ∀ content, p = (inStep acc).push_content content → starts event = none → ends event = none →
      ∃ acc', p = inStep acc' ∧ (acc.Prose → acc'.Prose) ∧
        ∀ kind id, (starts event = some (kind,id) ∨
          ((acc.parts.lookup kind id).isSome ∧ ends event ≠ some (kind,id))) → (acc'.parts.lookup kind id).isSome := by
    intro content done noStart noEnd
    refine ⟨_,done.trans (push_inStep acc content),fun prose => Prose.append prose [content],fun other key known => ?_⟩
    simpa [noStart,noEnd] using known
  cases event with
  | TextStart id metadata | ReasoningStart id metadata =>
    cases handled
    refine ⟨_,rfl,fun prose => Prose.start prose _ id metadata,fun other key known => ?_⟩
    simp only [StepAccumulator.start_part,Open.lookup_put]
    split_ifs with same
    · rfl
    · rcases known with isStart | ⟨known,-⟩
      · simp only [starts,some.injEq,Prod.mk.injEq] at isStart
        exact absurd ⟨isStart.1.symm,isStart.2.symm⟩ same
      · exact known
  | TextDelta id delta metadata | ReasoningDelta id delta metadata => exact updates handled rfl (by simp)
  | TextEnd id metadata | ReasoningEnd id metadata =>
    refine updates handled rfl fun other key stays same => stays ?_
    simp [ends,same.2]
  | ToolResult result =>
    cases handled
    by_cases preliminary : result.preliminary = true
    · exact ⟨acc,if_pos preliminary,fun prose => prose,fun other key known => by simpa [starts,ends] using known⟩
    · exact pushes _ (if_neg preliminary) rfl rfl
  | StartStep | RetryAttempt | FinishStep => cases inner
  | ToolInputStart | ToolInputDelta | ToolInputEnd | Raw =>
    cases handled
    exact ⟨acc,rfl,fun prose => prose,fun other key known => by simpa [starts,ends] using known⟩
  | _ =>
    cases handled
    exact pushes _ rfl rfl rfl

variable (a : Attempt)

theorem send_tracked_opened (event : StreamEvent) (kind : Kind) :
    (a.send_tracked event).opened kind = match starts event,ends event with
      | some part,_ => if part.1 = kind then a.opened kind ++ [part.2] else a.opened kind
      | none,some part => if part.1 = kind then (a.opened kind).filter (· ≠ part.2) else a.opened kind
      | none,none => a.opened kind := by
  cases event <;> cases kind <;> rfl

theorem Shown.congr {a b : Attempt} {shown : StepAccumulator} (shows : Shown ctx a shown) (sent : b.sent = a.sent)
    (open_text : b.state.open_text = a.state.open_text)
    (open_reasoning : b.state.open_reasoning = a.state.open_reasoning) : Shown ctx b shown := by
  have opened : b.opened = a.opened := by
    funext kind
    cases kind
    · exact open_text
    · exact open_reasoning
  constructor
  · rw [sent]; exact shows.sent
  · exact shows.prose
  · rw [opened]; exact shows.distinct
  · rw [opened]; exact shows.known
  · rw [opened,sent]; exact shows.begun
  · rw [opened,sent]; exact shows.covered
  · rw [sent]; exact shows.closed

theorem Shown.send {a : Attempt} {shown : StepAccumulator} {p : Processor} {event : StreamEvent}
    (shows : Shown ctx a shown) (inner : isInner event = true)
    (handled : (inStep shown).handle ctx event = .ok p)
    (fresh : ((a.sent ++ [event]).filterMap starts).Nodup) :
    ∃ shown', p = inStep shown' ∧ Shown ctx (a.send_tracked event) shown' := by
  obtain ⟨shown',rfl,prose,known⟩ := handle_inner inner handled
  have notBoth : ∀ part, starts event = some part → ends event = none := by cases event <;> simp [starts,ends]
  have mem : ∀ kind id, id ∈ (a.send_tracked event).opened kind ↔
      starts event = some (kind,id) ∨ (id ∈ a.opened kind ∧ ends event ≠ some (kind,id)) := by
    intro kind id
    rw [send_tracked_opened]
    cases isStart : starts event with
    | some part =>
      obtain ⟨other,key⟩ := part
      by_cases same : other = kind
      · subst same
        simp only [notBoth _ isStart,if_true,mem_append,mem_singleton,some.injEq,Prod.mk.injEq,true_and,
          ne_eq,reduceCtorEq,not_false_eq_true,and_true]
        rw [or_comm,eq_comm]
      · simp [same,notBoth _ isStart]
    | none =>
      cases isEnd : ends event with
      | none => simp
      | some part =>
        obtain ⟨other,key⟩ := part
        by_cases same : other = kind
        · subst same
          simp only [if_true,mem_filter,decide_eq_true_eq,some.injEq,Prod.mk.injEq,true_and,ne_eq,
            reduceCtorEq,false_or]
          rw [eq_comm (a := key)]
        · simp [same]
  have sent : (a.send_tracked event).sent = a.sent ++ [event] := rfl
  refine ⟨shown',rfl,⟨?_,prose shows.prose,?_,?_,?_,?_,?_⟩⟩
  · rw [sent,process_append_ok shows.sent]
    exact process_single handled
  · intro kind
    rw [send_tracked_opened]
    cases isStart : starts event with
    | some part =>
      obtain ⟨other,key⟩ := part
      by_cases same : other = kind
      · subst same
        have new : (other,key) ∉ a.sent.filterMap starts := by
          intro old
          rw [filterMap_append,nodup_append] at fresh
          exact fresh.2.2 _ old _ (by simp [isStart]) rfl
        have absent : key ∉ a.opened other := fun old => new (shows.begun other key old)
        simpa [nodup_append,absent] using ⟨shows.distinct other,fun id present same => absent (same ▸ present)⟩
      · simpa [same] using shows.distinct kind
    | none =>
      cases isEnd : ends event with
      | none => exact shows.distinct kind
      | some part =>
        by_cases same : part.1 = kind
        · simpa [same] using (shows.distinct kind).filter _
        · simpa [same] using shows.distinct kind
  · intro kind id opened
    rcases (mem kind id).mp opened with isStart | ⟨old,stays⟩
    · exact known kind id (.inl isStart)
    · exact known kind id (.inr ⟨shows.known kind id old,stays⟩)
  · intro kind id opened
    rw [sent,filterMap_append,mem_append]
    rcases (mem kind id).mp opened with isStart | ⟨old,-⟩
    · exact .inr (by simp [isStart])
    · exact .inl (shows.begun kind id old)
  · exact shows.covered.send (fun kind id old stays => (mem kind id).mpr (.inr ⟨old,stays⟩))
      fun kind id isStart => (mem kind id).mpr (.inl isStart)
  · exact shows.closed.send (.inl inner)

variable (events : List StreamEvent)

theorem send_tracked_frame : ∀ a : Attempt, ∃ texts reasonings,
    events.foldl Attempt.send_tracked a = { a with
      sent := a.sent ++ events
      state := { a.state with open_text := texts,open_reasoning := reasonings } } := by
  induction events with
  | nil => intro a; exact ⟨a.state.open_text,a.state.open_reasoning,by simp⟩
  | cons event _ ih =>
    intro a
    obtain ⟨texts,reasonings,later⟩ := ih (a.send_tracked event)
    refine ⟨texts,reasonings,?_⟩
    rw [foldl_cons,later]
    cases event <;> simp [Attempt.send_tracked,Attempt.send]

theorem Shown.send_all : ∀ {a : Attempt} {shown : StepAccumulator} {p : Processor},
    Shown ctx a shown → (∀ event ∈ events, isInner event = true) → (inStep shown).process ctx events = .ok p →
    ((a.sent ++ events).filterMap starts).Nodup →
    ∃ shown', p = inStep shown' ∧ Shown ctx (events.foldl Attempt.send_tracked a) shown' := by
  induction events with
  | nil =>
    intro a shown p shows _ processed _
    cases processed
    exact ⟨shown,rfl,shows⟩
  | cons event _ ih =>
    intro a shown p shows inner processed fresh
    rw [process_cons] at processed
    obtain ⟨_,handled,processed⟩ := Result.bind_ok.mp processed
    have first : ((a.sent ++ [event]).filterMap starts).Nodup := by
      rw [append_cons,filterMap_append] at fresh
      exact (nodup_append.mp fresh).1
    obtain ⟨_,rfl,shows'⟩ := shows.send (inner event mem_cons_self) handled first
    exact ih shows' (fun other mem => inner other (mem_cons_of_mem event mem)) processed (by
      simpa [Attempt.send_tracked,Attempt.send] using fresh)

/-! ### Holding back -/

theorem emit_held {a : Attempt} {events : List StreamEvent}
    (waits : a.state.buffer ≠ [] ∨ ∃ event rest, events = event :: rest ∧ is_tool_part event = true) :
    events.foldl (emit true) a = { a with state := { a.state with buffer := a.state.buffer ++ events } } := by
  induction events generalizing a with
  | nil => simp
  | cons event _ ih =>
    have held : a.emit true event = { a with state := { a.state with buffer := a.state.buffer ++ [event] } } := by
      have isHeld : (is_tool_part event || !a.state.buffer.isEmpty) = true := by
        rcases waits with some_ | ⟨_,_,same,isTool⟩
        · simp [some_]
        · cases same
          simp [isTool]
      unfold emit
      rw [if_pos (by simpa using isHeld)]
    rw [foldl_cons,held,ih (.inl (by simp))]
    simp

theorem emit_sent {possible : Bool} {events : List StreamEvent} : ∀ {a : Attempt}, a.state.buffer = [] →
    (possible = false ∨ ∀ event ∈ events, is_tool_part event = false) →
    events.foldl (emit possible) a = events.foldl Attempt.send_tracked a := by
  induction events with
  | nil => intro a _ _; rfl
  | cons event _ ih =>
    intro a idle goes
    have sent : a.emit possible event = a.send_tracked event := by
      unfold emit
      refine if_neg ?_
      rcases goes with impossible | plain
      · simp [impossible]
      · simp [idle,plain event mem_cons_self]
    rw [foldl_cons,foldl_cons,sent]
    refine ih ?_ (goes.imp_right fun plain other mem => plain other (mem_cons_of_mem event mem))
    obtain ⟨_,_,frame⟩ := send_tracked_frame [event] a
    rw [foldl_cons,foldl_nil] at frame
    rw [frame]
    exact idle

/-- An attempt as its reader sees it: its content, and how much of it is shown. -/
structure View where
  assembly : Assembly
  shown : List StepContent
  holding : Bool

namespace View

def start : View := ⟨.start,[],false⟩

def step (ctx : LoopContext) (inputs : StepInputs) (possible : Bool) (v : View) (part : StreamPart) :
    Except Error View := do
  let s ← v.assembly.step ctx inputs part
  let holding := possible && (isToolPart part || v.holding)
  return ⟨s,if holding then v.shown else s.content,holding⟩

def read (ctx : LoopContext) (inputs : StepInputs) (possible : Bool) (retries : StreamError → Bool) (v : View) :
    List StreamPart → List StepContent × Except Error AttemptOutcome
  | [] => (v.assembly.content,.error (.InvalidStreamPart "the model stream ended without a finish part"))
  | part :: rest =>
    match part with
    | .StreamStart _ => read ctx inputs possible retries v rest
    | .Error error =>
      if retries error then ([],.ok .Retry) else (v.assembly.content,.error (.Stream error))
    | .Finish finish_reason _ _ => (v.assembly.content,.Finished <$> v.assembly.finish inputs finish_reason)
    | part =>
      match v.step ctx inputs possible part with
      | .error error => (v.shown,.error error)
      | .ok v => read ctx inputs possible retries v rest

end View

structure Live (ctx : LoopContext) (possible : Bool) (a : Attempt) (v : View) (shown acc : StepAccumulator) : Prop where
  shows : Shown ctx a shown
  fresh : Fresh a
  held : (inStep shown).process ctx a.state.buffer = .ok (inStep acc)
  inner : ∀ event ∈ a.state.buffer, isInner event = true
  sim : Simulates a acc v.assembly
  content : shown.content = v.shown
  holding : v.holding = !a.state.buffer.isEmpty
  possible : v.holding = true → possible = true
  started_step : a.started_step = true

/-- An attempt that was discarded, at the boundary to the next one. -/
structure Between (ctx : LoopContext) (a : Attempt) (shown : StepAccumulator) : Prop where
  shows : Shown ctx a shown
  fresh : Fresh a
  state : a.state = .new
  started_step : a.started_step = true

inductive Reads (ctx : LoopContext) (sent : List StreamEvent) (b : Attempt) : Except Error AttemptOutcome →
    List StepContent × Except Error AttemptOutcome → Prop where
  | retried (shown : StepAccumulator) (grows : Grows sent b.sent) (between : Between ctx { b with state := .new } shown) :
      Reads ctx sent b (.ok .Retry) ([],.ok .Retry)
  | settled (shown : StepAccumulator) (grows : Grows sent b.sent) (shows : Shown ctx b shown)
      (result : Except Error ModelCallEnd) :
      Reads ctx sent b (.Finished <$> result) (shown.content,.Finished <$> result)
  | silent (before : sent = []) (nothing : b.sent = []) (error : Error) : Reads ctx sent b (.error error) ([],.error error)

/-- The decision of `handle_stream_error`. -/
def Attempt.retries (stream : StreamConfig) (a : Attempt) (error : StreamError) : Bool :=
  a.automatic stream || a.callback_retry stream error

theorem Reads.earlier {sent more : List StreamEvent} {b : Attempt} {outcome : Except Error AttemptOutcome}
    {view : List StepContent × Except Error AttemptOutcome} (reads : Reads ctx more b outcome view)
    (grows : Grows sent more) : Reads ctx sent b outcome view := by
  cases reads with
  | retried shown grew between => exact .retried shown (grows.trans grew) between
  | settled shown grew shows result => exact .settled shown (grows.trans grew) shows result
  | silent before nothing error =>
    obtain ⟨nil,-⟩ := grows
    rw [before] at nil
    exact .silent (List.prefix_nil.mp nil) nothing error

theorem inStep_injective {acc acc' : StepAccumulator} (same : inStep acc = inStep acc') : acc = acc' :=
  some.inj (congrArg Processor.current same)

theorem Live.step {a a' : Attempt} {v : View} {shown acc : StepAccumulator} {part : StreamPart}
    {events : List StreamEvent} (live : Live ctx stream.retries_possible a v shown acc)
    (mapped : a.map_part ctx inputs stream part = .ok (a',events)) :
    ∃ v' shown' acc', v.step ctx inputs stream.retries_possible part = .ok v' ∧ Frame a a' ∧
      Grows a.sent (events.foldl (emit stream.retries_possible) a').sent ∧
      Live ctx stream.retries_possible (events.foldl (emit stream.retries_possible) a') v' shown' acc' := by
  rcases @map_part_simulates ctx inputs stream acc a v.assembly live.sim part with
    ⟨error,failed,-⟩ | ⟨_,_,acc',s',done,stepped,processed,sim,mappedTo⟩
  · rw [mapped] at failed
    cases failed
  rw [mapped] at done
  cases done
  have frame := mappedTo.frame
  have shows : Shown ctx a' shown := live.shows.congr frame.sent frame.open_text frame.open_reasoning
  have fresh : ((a'.sent ++ (a'.state.buffer ++ events)).filterMap starts).Nodup ∧
      ∀ part ∈ (a'.sent ++ (a'.state.buffer ++ events)).filterMap starts, part.2 ∈ a'.used_ids := by
    rw [frame.sent,frame.buffer,← append_assoc,filterMap_append]
    rcases mappedTo.ids with ⟨none_,used⟩ | ⟨_,_,one,isNew,used⟩
    · rw [none_,append_nil,used]
      exact ⟨live.fresh.distinct,live.fresh.used⟩
    · rw [one,used]
      refine ⟨nodup_append.mpr ⟨live.fresh.distinct,nodup_singleton _,?_⟩,?_⟩
      · rintro old present new same rfl
        rw [List.mem_singleton.mp same] at present
        exact isNew (live.fresh.used _ present)
      · intro part mem
        rcases mem_append.mp mem with old | new
        · exact mem_cons_of_mem _ (live.fresh.used part old)
        · rw [List.mem_singleton.mp new]
          exact mem_cons_self
  have stepped : v.step ctx inputs stream.retries_possible part = .ok
      ⟨s',if stream.retries_possible && (isToolPart part || v.holding) then v.shown else s'.content,
        stream.retries_possible && (isToolPart part || v.holding)⟩ := by
    unfold View.step
    rw [stepped]
    rfl
  cases holds : stream.retries_possible && (isToolPart part || v.holding) with
  | true =>
    rw [holds] at stepped
    obtain ⟨possible,waits⟩ := Bool.and_eq_true_iff.mp holds
    have waits : a'.state.buffer ≠ [] ∨ ∃ event rest, events = event :: rest ∧ is_tool_part event = true := by
      rcases Bool.or_eq_true_iff.mp waits with isTool | isHolding
      · exact .inr (mappedTo.tool isTool)
      · rw [live.holding] at isHolding
        exact .inl (by rw [frame.buffer]; simpa using isHolding)
    have some_ : a'.state.buffer ++ events ≠ [] := by
      rcases waits with some_ | ⟨event,_,rfl,-⟩
      · simp [some_]
      · simp
    rw [possible,emit_held waits]
    rw [possible] at stepped
    refine ⟨⟨s',v.shown,true⟩,shown,acc',stepped,frame,frame.sent ▸ .refl _,⟨shows.congr rfl rfl rfl,⟨fresh.1,fresh.2⟩,?_,?_,?_,live.content,?_,?_,?_⟩⟩
    · show (inStep shown).process ctx (a'.state.buffer ++ events) = _
      rw [frame.buffer,process_append_ok live.held]
      exact processed
    · intro event mem
      rcases mem_append.mp mem with old | new
      · exact live.inner event (frame.buffer ▸ old)
      · exact mappedTo.inner event new
    · exact ⟨sim.content,sim.places,sim.known,sim.distinct,sim.reserved,sim.prose,sim.calls,sim.queued,
        sim.result_ids,sim.client_outputs,sim.denied⟩
    · cases whole : a'.state.buffer ++ events with
      | nil => exact absurd whole some_
      | cons => rfl
    · exact fun _ => rfl
    · exact frame.started_step.trans live.started_step
  | false =>
    rw [holds] at stepped
    have idle : a.state.buffer = [] ∧ (stream.retries_possible = false ∨ isToolPart part = false) := by
      have nothing : v.holding = false := by
        cases isHolding : v.holding with
        | false => rfl
        | true => simp [live.possible isHolding,isHolding] at holds
      refine ⟨by simpa [nothing] using live.holding,?_⟩
      cases possible : stream.retries_possible
      · exact .inl rfl
      · simp [possible] at holds
        exact .inr holds.1
    have same : shown = acc := by
      have held := live.held
      rw [idle.1] at held
      exact inStep_injective (Except.ok.inj held)
    subst same
    have empty : a'.state.buffer = [] := frame.buffer.trans idle.1
    rw [emit_sent empty (idle.2.imp_right mappedTo.plain)]
    rw [empty,nil_append] at fresh
    obtain ⟨_,isShown,shows'⟩ := shows.send_all events mappedTo.inner processed fresh.1
    obtain rfl := inStep_injective isShown
    obtain ⟨_,_,sends⟩ := send_tracked_frame events a'
    rw [sends] at shows' ⊢
    refine ⟨_,acc',acc',stepped,frame,frame.sent ▸ .append _ (inner_quiet mappedTo.inner),⟨shows',⟨?_,?_⟩,?_,?_,?_,sim.content,?_,?_,?_⟩⟩
    · simpa [empty] using fresh.1
    · simpa [empty] using fresh.2
    · show (inStep acc').process ctx a'.state.buffer = _
      rw [empty]
      rfl
    · simp [empty]
    · exact ⟨sim.content,sim.places,sim.known,sim.distinct,sim.reserved,sim.prose,sim.calls,sim.queued,
        sim.result_ids,sim.client_outputs,sim.denied⟩
    · simp [empty]
    · simp
    · exact frame.started_step.trans live.started_step

theorem Live.step_error {a : Attempt} {v : View} {shown acc : StepAccumulator} {part : StreamPart} {error : Error}
    (live : Live ctx stream.retries_possible a v shown acc)
    (failed : a.map_part ctx inputs stream part = .error error) :
    v.step ctx inputs stream.retries_possible part = .error error := by
  rcases @map_part_simulates ctx inputs stream acc a v.assembly live.sim part with
    ⟨other,same,stepped⟩ | ⟨_,_,_,_,done,-⟩
  · rw [failed] at same
    cases same
    unfold View.step
    rw [stepped]
    rfl
  · rw [failed] at done
    cases done

theorem Live.flush {a : Attempt} {v : View} {shown acc : StepAccumulator}
    (live : Live ctx stream.retries_possible a v shown acc) : Shown ctx a.flush_buffer acc := by
  have shows : Shown ctx { a with state := { a.state with buffer := [] } } shown := live.shows.congr rfl rfl rfl
  obtain ⟨_,same,shows'⟩ := shows.send_all a.state.buffer live.inner live.held live.fresh.distinct
  obtain rfl := inStep_injective same
  exact shows'

theorem flush_buffer_frame : ∃ texts reasonings, a.flush_buffer = { a with
    sent := a.sent ++ a.state.buffer
    state := { a.state with open_text := texts,open_reasoning := reasonings,buffer := [] } } := by
  obtain ⟨texts,reasonings,frame⟩ :=
    send_tracked_frame a.state.buffer { a with state := { a.state with buffer := [] } }
  exact ⟨texts,reasonings,frame⟩

theorem flush_buffer_grows {a : Attempt} (inner : ∀ event ∈ a.state.buffer, isInner event = true) :
    Grows a.sent a.flush_buffer.sent := by
  obtain ⟨_,_,flushed⟩ := flush_buffer_frame a
  rw [flushed]
  exact .append _ (inner_quiet inner)

def Kind.ending (kind : Kind) (id : PartId) : StreamEvent :=
  match kind with
  | .text => .TextEnd id none
  | .reasoning => .ReasoningEnd id none

theorem ending_ends (kind : Kind) (id : PartId) : ends (kind.ending id) = some (kind,id) ∧
    starts (kind.ending id) = none ∧ isInner (kind.ending id) = true := by
  cases kind <;> exact ⟨rfl,rfl,rfl⟩

theorem handle_ending {shown : StepAccumulator} {kind : Kind} {id : PartId} (prose : shown.Prose)
    (known : (shown.parts.lookup kind id).isSome) : ∃ shown', (inStep shown).handle ctx (kind.ending id) = .ok (inStep shown') ∧
      shown'.Prose ∧ ∀ other key, (other,key) ≠ (kind,id) → shown'.parts.lookup other key = shown.parts.lookup other key := by
  obtain ⟨index,place⟩ := Option.isSome_iff_exists.mp known
  have handles : (inStep shown).handle ctx (kind.ending id) = (inStep shown).update_part kind id none none true := by
    cases kind <;> rfl
  have updated : shown.update_part kind id none none true = .ok { shown with
      content := shown.content.modify index (extend none none)
      parts := shown.parts.remove kind id } := by
    unfold StepAccumulator.update_part
    simp [place,prose kind id index place]
  obtain ⟨keeps,parts⟩ := update_part_ok updated
  refine ⟨_,handles.trans (update_inStep updated),keeps prose,fun other key differs => ?_⟩
  rw [parts,if_neg]
  rintro ⟨-,rfl,rfl⟩
  exact differs rfl

theorem process_endings (parts : List (Kind × PartId)) : ∀ {shown : StepAccumulator}, shown.Prose → parts.Nodup →
    (∀ part ∈ parts, (shown.parts.lookup part.1 part.2).isSome) → ∃ shown',
      (inStep shown).process ctx (parts.map fun part => part.1.ending part.2) = .ok (inStep shown') ∧ shown'.Prose := by
  induction parts with
  | nil => intro shown prose _ _; exact ⟨shown,rfl,prose⟩
  | cons part _ ih =>
    intro shown prose distinct known
    obtain ⟨new,others⟩ := List.nodup_cons.mp distinct
    obtain ⟨_,handled,nextProse,same⟩ := @handle_ending ctx shown part.1 part.2 prose (known part mem_cons_self)
    obtain ⟨last,processed,lastProse⟩ := ih nextProse others fun other mem => by
      have differs : (other.1,other.2) ≠ (part.1,part.2) := fun equal => by
        obtain rfl : other = part := equal
        exact new mem
      rw [same other.1 other.2 differs]
      exact known other (mem_cons_of_mem part mem)
    refine ⟨last,?_,lastProse⟩
    rw [map_cons,process_cons,handled]
    exact processed

theorem send_all_frame : ∀ a : Attempt,
    events.foldl Attempt.send a = { a with sent := a.sent ++ events } := by
  induction events with
  | nil => intro a; simp
  | cons _ _ ih => intro a; rw [foldl_cons,ih]; simp [Attempt.send]

theorem Live.discard {a : Attempt} {v : View} {shown acc : StepAccumulator}
    (live : Live ctx stream.retries_possible a v shown acc) (b : Attempt)
    (discarded : ∃ c : Attempt, c.state = { a.state with buffer := [] } ∧ c.sent = a.sent ∧ c.used_ids = a.used_ids ∧
      c.started_step = a.started_step ∧ b.sent = c.close_open_parts.sent ∧ b.used_ids = c.used_ids ∧
      b.started_step = c.started_step) : ∃ shown', Between ctx { b with state := .new } shown' := by
  obtain ⟨c,state,sent,used,started,sentB,usedB,startedB⟩ := discarded
  let parts := (a.opened .text).map (Kind.text,·) ++ (a.opened .reasoning).map (Kind.reasoning,·)
  have closing : b.sent = a.sent ++ parts.map fun part => part.1.ending part.2 := by
    rw [sentB,close_open_parts,send_all_frame,state,sent]
    simp [parts,opened,Kind.ending,Function.comp_def]
  have mem : ∀ kind id, (kind,id) ∈ parts ↔ id ∈ a.opened kind := by
    intro kind id
    cases kind <;> simp [parts]
  have distinct : parts.Nodup := by
    refine nodup_append.mpr ⟨(live.shows.distinct .text).map fun _ _ same => (Prod.mk.inj same).2,
      (live.shows.distinct .reasoning).map fun _ _ same => (Prod.mk.inj same).2,?_⟩
    intro one first two second same
    obtain ⟨_,-,rfl⟩ := mem_map.mp first
    obtain ⟨_,-,rfl⟩ := mem_map.mp second
    cases same
  obtain ⟨shown',processed,prose⟩ := @process_endings ctx parts shown live.shows.prose distinct fun part member =>
    live.shows.known part.1 part.2 ((mem part.1 part.2).mp member)
  have noStarts : (parts.map fun part => part.1.ending part.2).filterMap starts = [] := by
    refine List.filterMap_eq_nil_iff.mpr fun event member => ?_
    obtain ⟨part,-,rfl⟩ := mem_map.mp member
    exact (ending_ends part.1 part.2).2.1
  have closed : Closed b.sent := by
    rw [closing]
    intro before event after kind id split isStart
    rcases List.append_eq_append_iff.mp split with ⟨_,rfl,late⟩ | ⟨_,early,late⟩
    · exfalso
      have isEnding : event ∈ parts.map fun part => part.1.ending part.2 := late ▸ by simp
      have := List.filterMap_eq_nil_iff.mp noStarts event isEnding
      rw [isStart] at this
      cases this
    · rcases List.cons_eq_append_iff.mp late with ⟨rfl,late⟩ | ⟨rest,rfl,rfl⟩
      · exfalso
        have isEnding : event ∈ parts.map fun part => part.1.ending part.2 := by
          rw [nil_append] at late
          rw [← late]
          exact mem_cons_self
        have := List.filterMap_eq_nil_iff.mp noStarts event isEnding
        rw [isStart] at this
        cases this
      · left
        rcases live.shows.covered before event rest kind id early isStart with ⟨other,member,isEnd⟩ | stillOpen
        · exact ⟨other,mem_append_left _ member,isEnd⟩
        · exact ⟨kind.ending id,mem_append_right _ (mem_map.mpr ⟨(kind,id),(mem kind id).mpr stillOpen,rfl⟩),
            (ending_ends kind id).1⟩
  have retries : RetriesClosed b.sent := by
    rw [closing]
    refine live.shows.closed.send_all fun event member => ?_
    obtain ⟨part,-,rfl⟩ := mem_map.mp member
    exact (ending_ends part.1 part.2).2.2
  have nothing : ∀ kind, ({ b with state := AttemptState.new } : Attempt).opened kind = [] := by
    intro kind
    cases kind <;> rfl
  refine ⟨shown',⟨⟨?_,prose,?_,?_,?_,?_,retries⟩,⟨?_,?_⟩,rfl,startedB.trans (started.trans live.started_step)⟩⟩
  · show Processor.new.process ctx b.sent = _
    rw [closing,process_append_ok live.shows.sent]
    exact processed
  · intro kind
    rw [nothing]
    exact nodup_nil
  · intro kind id member
    rw [nothing] at member
    cases member
  · intro kind id member
    rw [nothing] at member
    cases member
  · intro before event after kind id split isStart
    exact .inl ((closed before event after kind id split isStart).resolve_right not_false)
  · show ((b.sent ++ []).filterMap starts).Nodup
    rw [append_nil,closing,filterMap_append,noStarts,append_nil]
    have := live.fresh.distinct
    rw [filterMap_append] at this
    exact (nodup_append.mp this).1
  · intro part member
    have member : part ∈ (b.sent ++ []).filterMap starts := member
    rw [append_nil,closing,filterMap_append,noStarts,append_nil] at member
    show part.2 ∈ b.used_ids
    rw [usedB,used]
    refine live.fresh.used part ?_
    rw [filterMap_append]
    exact mem_append_left _ member

/-! ### A whole attempt -/

/-- The parts that the reading itself acts on. -/
def isControl : StreamPart → Bool
  | .StreamStart _ | .Error _ | .Finish .. => true
  | _ => false

theorem read_attempt_part {a : Attempt} {part : StreamPart} {rest : List StreamPart} (started : a.started_step = true)
    (content : isControl part = false) : a.read_attempt ctx inputs stream false (part :: rest) =
      match a.map_part ctx inputs stream part with
      | .error error => (a,.error error)
      | .ok (a,events) =>
        Attempt.read_attempt ctx inputs stream (events.foldl (emit stream.retries_possible) a) false rest := by
  cases part with
  | StreamStart | Error | Finish => cases content
  | _ =>
    rw [read_attempt] <;> simp [started]
    all_goals rfl

theorem View.read_part {possible : Bool} {retries : StreamError → Bool} {v : View} {part : StreamPart}
    {rest : List StreamPart} (content : isControl part = false) : v.read ctx inputs possible retries (part :: rest) =
      match v.step ctx inputs possible part with
      | .error error => (v.shown,.error error)
      | .ok v => v.read ctx inputs possible retries rest := by
  cases part with
  | StreamStart | Error | Finish => cases content
  | _ => rfl

theorem Frame.retries {a a' : Attempt} (frame : Frame a a') : a'.retries stream = a.retries stream := by
  unfold Attempt.retries Attempt.callback_retry Attempt.automatic
  rw [frame.attempt,frame.automatic_retries,frame.callback_retries]

theorem send_tracked_retries :
    (events.foldl (emit stream.retries_possible) a).retries stream = a.retries stream := by
  induction events generalizing a with
  | nil => rfl
  | cons _ _ ih =>
    rw [foldl_cons,ih]
    unfold emit
    split_ifs <;> rfl

theorem Simulates.finish {a : Attempt} {acc : StepAccumulator} {s : Assembly} (sim : Simulates a acc s)
    (finish_reason : FinishReason) : a.finish inputs finish_reason = s.finish inputs finish_reason := by
  unfold Attempt.finish Assembly.finish
  rw [sim.calls,sim.queued,sim.result_ids,sim.client_outputs,sim.denied]

theorem close_open_parts_frame : a.close_open_parts.used_ids = a.used_ids ∧
    a.close_open_parts.started_step = a.started_step ∧ Grows a.sent a.close_open_parts.sent := by
  unfold close_open_parts
  rw [send_all_frame]
  refine ⟨rfl,rfl,.append _ fun event mem => ?_⟩
  rcases mem_append.mp mem with one | two
  · obtain ⟨id,-,rfl⟩ := mem_map.mp one
    rfl
  · obtain ⟨_,-,rfl⟩ := mem_map.mp two
    rfl

theorem Live.handle_stream_error {a : Attempt} {v : View} {shown acc : StepAccumulator} {error : StreamError}
    (live : Live ctx stream.retries_possible a v shown acc) :
    Reads ctx a.sent (a.handle_stream_error stream error).1 (a.handle_stream_error stream error).2
      (if a.retries stream error then ([],.ok .Retry) else (v.assembly.content,.error (.Stream error))) := by
  unfold Attempt.handle_stream_error Attempt.retries
  split_ifs with retries automatic
  · let c : Attempt := { a with
      automatic_retries := a.automatic_retries + 1
      state := { a.state with buffer := [] } }
    obtain ⟨used,started,grows⟩ := close_open_parts_frame c
    obtain ⟨shown',between⟩ := live.discard { c.close_open_parts with attempt := c.close_open_parts.attempt + 1 }
      ⟨c,rfl,rfl,rfl,rfl,rfl,used,started⟩
    exact .retried shown' grows between
  · let c : Attempt := { a with
      callback_retries := a.callback_retries + 1
      state := { a.state with buffer := [] } }
    obtain ⟨used,started,grows⟩ := close_open_parts_frame c
    obtain ⟨shown',between⟩ := live.discard { c.close_open_parts with attempt := c.close_open_parts.attempt + 1 }
      ⟨c,rfl,rfl,rfl,rfl,rfl,used,started⟩
    exact .retried shown' grows between
  · rw [← live.sim.content]
    exact .settled acc (flush_buffer_grows live.inner) live.flush (.error (.Stream error))

theorem read_attempt_live (parts : List StreamPart) : ∀ {a : Attempt} {v : View} {shown acc : StepAccumulator},
    Live ctx stream.retries_possible a v shown acc →
    Reads ctx a.sent (a.read_attempt ctx inputs stream false parts).1 (a.read_attempt ctx inputs stream false parts).2
      (v.read ctx inputs stream.retries_possible (a.retries stream) parts) := by
  induction parts with
  | nil =>
    intro a v shown acc live
    have settled := Reads.settled acc (flush_buffer_grows live.inner) live.flush
      (.error (.InvalidStreamPart "the model stream ended without a finish part"))
    rw [live.sim.content] at settled
    exact settled
  | cons part _ ih =>
    intro a v shown acc live
    have started := live.started_step
    cases control : isControl part with
    | false =>
      rw [read_attempt_part started control,View.read_part control]
      cases mapped : a.map_part ctx inputs stream part with
      | error error =>
        rw [live.step_error mapped,← live.content]
        exact .settled shown (.refl _) live.shows (.error error)
      | ok result =>
        obtain ⟨_,_⟩ := result
        obtain ⟨_,_,_,stepped,frame,grows,live'⟩ := live.step mapped
        have later := ih live'
        rw [send_tracked_retries,frame.retries] at later
        rw [stepped]
        exact later.earlier grows
    | true =>
      cases part with
      | StreamStart warnings =>
        rw [read_attempt,View.read]
        refine @ih { a with state := { a.state with warnings } } v shown acc ?_
        exact ⟨live.shows.congr rfl rfl rfl,⟨live.fresh.1,live.fresh.2⟩,live.held,live.inner,
          ⟨live.sim.content,live.sim.places,live.sim.known,live.sim.distinct,live.sim.reserved,live.sim.prose,
            live.sim.calls,live.sim.queued,live.sim.result_ids,live.sim.client_outputs,live.sim.denied⟩,
          live.content,live.holding,live.possible,started⟩
      | Error =>
        rw [read_attempt,View.read]
        simp only [Bool.false_eq_true,if_false,started,if_true]
        exact live.handle_stream_error
      | Finish finish_reason =>
        rw [read_attempt,View.read]
        simp only [Bool.false_eq_true,if_false,started,if_true]
        obtain ⟨_,_,flushed⟩ := flush_buffer_frame a
        have same : a.flush_buffer.finish inputs finish_reason = v.assembly.finish inputs finish_reason := by
          rw [← live.sim.finish,flushed]
          rfl
        have settled := Reads.settled acc (flush_buffer_grows live.inner) live.flush (v.assembly.finish inputs finish_reason)
        rw [live.sim.content] at settled
        simpa [same] using settled
      | _ => cases control

structure Idle (a : Attempt) : Prop where
  sent : a.sent = []
  state : a.state = { AttemptState.new with warnings := a.state.warnings }
  started_step : a.started_step = false

theorem live_start {a : Attempt} {possible : Bool} {warnings : List Warning}
    (state : a.state = { AttemptState.new with warnings := a.state.warnings })
    (sent : Processor.new.process ctx a.sent = .ok (inStep (.new warnings))) (closed : RetriesClosed a.sent)
    (covered : Closed a.sent) (distinct : (a.sent.filterMap starts).Nodup)
    (used : ∀ part ∈ a.sent.filterMap starts, part.2 ∈ a.used_ids) (started : a.started_step = true) :
    Live ctx possible a .start (.new warnings) (.new warnings) := by
  have nothing : ∀ kind, a.opened kind = [] := by
    intro kind
    unfold opened
    rw [state]
    cases kind <;> rfl
  have empty : a.state.buffer = [] := by rw [state]; rfl
  have closedIds : a.state.open_ids = .empty := by rw [state]; rfl
  refine ⟨⟨sent,?_,?_,?_,?_,?_,closed⟩,⟨by simpa [empty] using distinct,by simpa [empty] using used⟩,?_,?_,?_,rfl,?_,?_,started⟩
  · intro kind id index found
    cases kind <;> cases found
  · intro kind
    rw [nothing]
    exact nodup_nil
  · intro kind id mem
    rw [nothing] at mem
    cases mem
  · intro kind id mem
    rw [nothing] at mem
    cases mem
  · intro before event after kind id split isStart
    exact .inl ((covered before event after kind id split isStart).resolve_right not_false)
  · rw [empty]
    rfl
  · simp [empty]
  · constructor
    case content => rfl
    case places => intro kind id; cases kind <;> simp [closedIds] <;> rfl
    case known => intro kind id mapped found; simp [closedIds] at found
    case distinct => intro kind id other mapped found; simp [closedIds] at found
    case reserved => intro kind id mapped found; simp [closedIds] at found
    case prose => intro kind id index found; cases kind <;> cases found
    all_goals rw [state]; rfl
  · simp [View.start,empty]
  · simp [View.start]

end

end Ferrin.StreamText
