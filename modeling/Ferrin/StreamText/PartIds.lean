import Ferrin.StreamText.Loop

/-!
The ids of text and reasoning in the event stream. An id is reserved for the whole
call when a part starts, whatever the provider calls it, and deltas and ends go by
the id of the part that the provider's id stands for.
-/
namespace Ferrin.StreamText
open Ferrin.GenerateText List Attempt
open Result (bind_ok toOption_any)
open List (mem_append mem_cons mem_map mem_singleton)

/-! ### What the provider's ids stand for -/

def starting : StreamPart → Option (Kind × PartId)
  | .TextStart id _ => some (.text,id)
  | .ReasoningStart id _ => some (.reasoning,id)
  | _ => none

def ending : StreamPart → Option (Kind × PartId)
  | .TextEnd id _ => some (.text,id)
  | .ReasoningEnd id _ => some (.reasoning,id)
  | _ => none

def continuing : StreamPart → Option (Kind × PartId)
  | .TextDelta id .. | .TextEnd id _ => some (.text,id)
  | .ReasoningDelta id .. | .ReasoningEnd id _ => some (.reasoning,id)
  | _ => none

def carries : StreamEvent → Option (Kind × PartId)
  | .TextDelta id .. | .TextEnd id _ => some (.text,id)
  | .ReasoningDelta id .. | .ReasoningEnd id _ => some (.reasoning,id)
  | _ => none

def startIds (events : List StreamEvent) : List PartId := (events.filterMap starts).map (·.2)

abbrev Mapping := List (StreamPart × List StreamEvent)

def rename (kind : Kind) (id : PartId) (now : Option PartId) (mapped : StreamPart × List StreamEvent) : Option PartId :=
  if starting mapped.1 = some (kind,id) then (startIds mapped.2).head?
  else if ending mapped.1 = some (kind,id) then none
  else now

/-- The event id of the part that an id of the provider stands for: that of its last start, unless it has ended. -/
def denotes (mapping : Mapping) (kind : Kind) (id : PartId) : Option PartId := mapping.foldl (rename kind id) none

/-- Every delta and end goes by the id of the part that the provider's id stands for. -/
def Carried (mapping : Mapping) : Prop :=
  ∀ before part events after, mapping = before ++ (part,events) :: after →
    ∀ event ∈ events, ∀ kind mapped, carries event = some (kind,mapped) →
      ∃ id, continuing part = some (kind,id) ∧ denotes before kind id = some mapped

namespace Attempt

/-- The parts that `read_attempt` maps. -/
def mapping (ctx : LoopContext) (inputs : StepInputs) (stream : StreamConfig) (a : Attempt) (pending_boundary : Bool) :
    List StreamPart → Mapping
  | [] => []
  | part :: rest =>
    let a := if pending_boundary then a.emit_boundary (streamStartWarnings part) else a
    match part with
    | .StreamStart warnings => mapping ctx inputs stream { a with state := { a.state with warnings } } false rest
    | part =>
      let a := if a.started_step then a else a.emit_start_step
      match part with
      | .Error _ | .Finish .. => []
      | other =>
        match a.map_part ctx inputs stream other with
        | .error _ => []
        | .ok (a,events) =>
          (other,events) :: mapping ctx inputs stream (events.foldl (emit stream.retries_possible) a) false rest

/-- The mappings of the attempts of `read`, one for each. -/
def mappings (ctx : LoopContext) (inputs : StepInputs) (stream : StreamConfig) (a : Attempt) (pending_boundary : Bool) :
    List (List StreamPart) → List Mapping
  | [] => []
  | parts :: later =>
    a.mapping ctx inputs stream pending_boundary parts ::
      match a.read_attempt ctx inputs stream pending_boundary parts with
      | (a,.ok .Retry) => mappings ctx inputs stream { a with state := .new } true later
      | _ => []

end Attempt

/-- What is sent of an attempt: the boundaries, then its events in order as far as they were not held back to the end,
    and, when it is discarded, the ends of parts that were still open. -/
def Spoken (mapping : Mapping) (sent : List StreamEvent) : Prop :=
  ∃ lead emitted closings, sent = lead ++ emitted ++ closings ∧ (∀ event ∈ lead, isInner event = false) ∧
    emitted <+: mapping.flatMap (·.2) ∧
    ∀ event ∈ closings, ∃ kind id, event = kind.ending id ∧ (kind,id) ∈ emitted.filterMap starts

section
variable {ctx : LoopContext} {inputs : StepInputs} {stream : StreamConfig} {a a' : Attempt} {part : StreamPart}
  {events : List StreamEvent}

structure Names (a : Attempt) (part : StreamPart) (a' : Attempt) (events : List StreamEvent) : Prop where
  renamed : ∀ kind id, a'.state.open_ids.lookup kind id = rename kind id (a.state.open_ids.lookup kind id) (part,events)
  carried : ∀ event ∈ events, ∀ kind mapped, carries event = some (kind,mapped) →
    ∃ id, continuing part = some (kind,id) ∧ a.state.open_ids.lookup kind id = some mapped
  reserved : startIds events = [] ∧ a'.used_ids = a.used_ids ∨
    ∃ mapped, startIds events = [mapped] ∧ mapped ∉ a.used_ids ∧ a'.used_ids = mapped :: a.used_ids

theorem Names.other (starts_none : starting part = none) (ends_none : ending part = none)
    (open_ids : a'.state.open_ids = a.state.open_ids) (used : a'.used_ids = a.used_ids)
    (plain : ∀ event ∈ events, carries event = none ∧ starts event = none) : Names a part a' events where
  renamed := by simp [rename,starts_none,ends_none,open_ids]
  carried := by
    intro event mem kind mapped same
    rw [(plain event mem).1] at same
    cases same
  reserved := .inl ⟨by simp [startIds,List.filterMap_eq_nil_iff.mpr fun event mem => (plain event mem).2],used⟩

theorem Names.started (kind : Kind) (id : PartId) (metadata : Option ProviderMetadata) (isStart : starting part = some (kind,id))
    (event : StreamEvent) (opens : starts event = some (kind,(a.start_part kind id metadata).2)) (plain : carries event = none) :
    Names a part (a.start_part kind id metadata).1 [event] where
  renamed := by
    intro other key
    simp only [start_part] at opens ⊢
    rw [Open.lookup_put,rename,isStart]
    by_cases same : other = kind ∧ key = id
    · obtain ⟨rfl,rfl⟩ := same
      simp [startIds,opens]
    · have differs : ¬ (kind = other ∧ id = key) := fun swapped => same ⟨swapped.1.symm,swapped.2.symm⟩
      have open_ : ending part = none := by
        cases part <;> first | rfl | cases isStart
      simp [same,differs,open_]
  carried := by
    intro other mem kind mapped same
    rw [mem_singleton.mp mem,plain] at same
    cases same
  reserved := .inr ⟨reserve_part_id a.used_ids id,by simp only [startIds,filterMap_cons,opens]; rfl,
    reserve_part_id_fresh a.used_ids id,rfl⟩

theorem Names.updated {kind : Kind} {id mapped : PartId} {delta : Option String} {metadata : Option ProviderMetadata}
    {isEnd : Bool} (changed : a.update_part kind id delta metadata isEnd = .ok (a',mapped))
    (starts_none : starting part = none) (continues : continuing part = some (kind,id))
    (ends_iff : ending part = if isEnd then some (kind,id) else none)
    (plain : ∀ event ∈ events, carries event = some (kind,mapped) ∧ starts event = none) : Names a part a' events := by
  unfold update_part at changed
  split at changed
  case h_1 => cases changed
  case h_2 mapped' there =>
    cases changed
    refine ⟨?_,?_,.inl ⟨?_,rfl⟩⟩
    · intro other key
      cases isEnd with
      | false => simp [rename,starts_none,ends_iff]
      | true =>
        simp only [rename,starts_none,ends_iff,if_true,Open.lookup_remove]
        by_cases same : other = kind ∧ key = id
        · obtain ⟨rfl,rfl⟩ := same
          simp
        · have differs : ¬ (kind = other ∧ id = key) := fun swapped => same ⟨swapped.1.symm,swapped.2.symm⟩
          simp [same,differs]
    · intro event mem other mapped'' same
      rw [(plain event mem).1] at same
      cases same
      exact ⟨id,continues,there⟩
    · simp [startIds,List.filterMap_eq_nil_iff.mpr fun event mem => (plain event mem).2]

theorem content_plain (contents : List StepContent) {event : StreamEvent} (mem : event ∈ contents.filterMap content_event) :
    carries event = none ∧ starts event = none := by
  obtain ⟨part,-,shows⟩ := List.mem_filterMap.mp mem
  cases part <;> simp only [content_event,reduceCtorEq,Option.some.injEq] at shows <;> subst shows
  all_goals exact ⟨rfl,rfl⟩

theorem map_part_names (mapped : a.map_part ctx inputs stream part = .ok (a',events)) : Names a part a' events := by
  cases part with
  | TextStart id metadata =>
    cases mapped
    exact .started .text id metadata rfl _ rfl rfl
  | ReasoningStart id metadata =>
    cases mapped
    exact .started .reasoning id metadata rfl _ rfl rfl
  | TextDelta id delta metadata | ReasoningDelta id delta metadata =>
    obtain ⟨⟨next,new⟩,changed,mapped⟩ := bind_ok.mp mapped
    cases mapped
    refine .updated changed rfl rfl rfl fun event mem => ?_
    split at mem
    · cases mem
    · rw [mem_singleton.mp mem]
      exact ⟨rfl,rfl⟩
  | TextEnd id metadata | ReasoningEnd id metadata =>
    obtain ⟨⟨_,_⟩,changed,mapped⟩ := bind_ok.mp mapped
    cases mapped
    refine .updated changed rfl rfl rfl fun event mem => ?_
    rw [mem_singleton.mp mem]
    exact ⟨rfl,rfl⟩
  | ToolCall call =>
    cases decided : decision ctx inputs (parse_tool_call inputs.parse call) with
    | error =>
      simp only [map_part,map_tool_call_error decided] at mapped
      cases mapped
    | ok =>
      simp only [map_part,map_tool_call_ok decided] at mapped
      cases mapped
      refine .other rfl rfl rfl rfl fun event mem => ?_
      rcases mem_cons.mp mem with rfl | later
      · exact ⟨rfl,rfl⟩
      · exact content_plain _ later
  | ToolResult =>
    cases mapped
    exact .other rfl rfl rfl rfl fun event mem => content_plain [_] (by simpa using mem)
  | ToolApprovalRequest =>
    simp only [map_part] at mapped
    split at mapped
    · cases mapped
    · cases mapped
      exact .other rfl rfl rfl rfl (by simp [carries,starts])
  | Raw =>
    cases mapped
    refine .other rfl rfl rfl rfl ?_
    cases stream.include_raw_chunks <;> simp [carries,starts]
  | File | ReasoningFile | Source | Custom | ToolInputStart | ToolInputDelta | ToolInputEnd | ResponseMetadata | StreamStart
  | Finish | Error =>
    cases mapped
    exact .other rfl rfl rfl rfl (by simp [carries,starts])

theorem denotes_append (mapping : Mapping) (mapped : StreamPart × List StreamEvent) (kind : Kind) (id : PartId) :
    denotes (mapping ++ [mapped]) kind id = rename kind id (denotes mapping kind id) mapped := by
  simp [denotes]

variable {mapping : Mapping} {possible pending_boundary : Bool} {before base : List StreamEvent} {b : Attempt}
  {rest : List StreamPart} {used : List PartId}

theorem Carried.append (carried : Carried mapping)
    (last : ∀ event ∈ events, ∀ kind mapped, carries event = some (kind,mapped) →
      ∃ id, continuing part = some (kind,id) ∧ denotes mapping kind id = some mapped) :
    Carried (mapping ++ [(part,events)]) := by
  intro before part' events' after whole
  rcases eq_nil_or_concat after with rfl | ⟨early,_,rfl⟩
  · obtain ⟨rfl,same⟩ := append_inj' whole rfl
    cases same
    exact last
  · rw [concat_eq_append,← cons_append,← append_assoc] at whole
    obtain ⟨rfl,-⟩ := append_inj' whole rfl
    exact carried before part' events' early rfl

theorem emit_frame (possible : Bool) (events : List StreamEvent) : ∀ a : Attempt,
    (events.foldl (Attempt.emit possible) a).used_ids = a.used_ids ∧
    (events.foldl (Attempt.emit possible) a).state.open_ids = a.state.open_ids ∧
    (events.foldl (Attempt.emit possible) a).started_step = a.started_step ∧
    ((events.foldl (Attempt.emit possible) a).sent ++ (events.foldl (Attempt.emit possible) a).state.buffer).Perm
      (a.sent ++ a.state.buffer ++ events) := by
  induction events with
  | nil => intro a; simp
  | cons event rest ih =>
    intro a
    have one : (a.emit possible event).used_ids = a.used_ids ∧
        (a.emit possible event).state.open_ids = a.state.open_ids ∧
        (a.emit possible event).started_step = a.started_step ∧
        ((a.emit possible event).sent ++ (a.emit possible event).state.buffer).Perm
          (a.sent ++ a.state.buffer ++ [event]) := by
      unfold Attempt.emit
      split_ifs
      · exact ⟨rfl,rfl,rfl,by simp⟩
      · obtain ⟨_,_,frame⟩ := send_tracked_frame [event] a
        rw [foldl_cons,foldl_nil] at frame
        rw [frame]
        refine ⟨rfl,rfl,rfl,?_⟩
        rw [append_assoc,append_assoc]
        exact List.perm_append_comm.append_left _
    obtain ⟨used,open_ids,started,perm⟩ := ih (a.emit possible event)
    rw [foldl_cons]
    refine ⟨used.trans one.1,open_ids.trans one.2.1,started.trans one.2.2.1,perm.trans ?_⟩
    have grown := one.2.2.2.append_right rest
    simpa using grown

/-- The events of an attempt: `lead` are its boundaries, `all` its events, of which some wait. -/
def Emits (possible : Bool) (before all : List StreamEvent) (a : Attempt) : Prop :=
  ∃ emitted, a.sent = before ++ emitted ∧ emitted ++ a.state.buffer = all ∧
    (∀ kind id, id ∈ a.opened kind → (kind,id) ∈ emitted.filterMap starts) ∧
    (possible = false → a.state.buffer = [])

theorem Emits.emit {all : List StreamEvent} (emits : Emits possible before all a)
    (event : StreamEvent) : Emits possible before (all ++ [event]) (a.emit possible event) := by
  obtain ⟨emitted,sent,whole,begun,holds⟩ := emits
  unfold Attempt.emit
  split_ifs with waits
  · refine ⟨emitted,sent,by simp [← whole],begun,?_⟩
    intro impossible
    simp [impossible] at waits
  · have idle : a.state.buffer = [] := by
      cases possible with
      | false => exact holds rfl
      | true =>
        have plain : is_tool_part event = false ∧ a.state.buffer = [] := by simpa using waits
        exact plain.2
    obtain ⟨_,_,frame⟩ := send_tracked_frame [event] a
    rw [foldl_cons,foldl_nil] at frame
    refine ⟨emitted ++ [event],by simp [frame,sent],by simp [frame,← whole,idle],?_,by simp [frame,idle]⟩
    intro kind id isOpen
    rw [send_tracked_opened] at isOpen
    rw [filterMap_append,mem_append]
    split at isOpen
    case h_1 part opens =>
      split_ifs at isOpen with same
      · rcases mem_append.mp isOpen with old | new
        · exact .inl (begun kind id old)
        · obtain rfl := mem_singleton.mp new
          exact .inr (by simp [opens,← same])
      · exact .inl (begun kind id isOpen)
    case h_2 part _ _ =>
      split_ifs at isOpen with same
      · exact .inl (begun kind id (List.mem_filter.mp isOpen).1)
      · exact .inl (begun kind id isOpen)
    case h_3 => exact .inl (begun kind id isOpen)

theorem Emits.emit_all (events : List StreamEvent) :
    ∀ {a : Attempt} {all : List StreamEvent}, Emits possible before all a →
      Emits possible before (all ++ events) (events.foldl (Attempt.emit possible) a) := by
  induction events with
  | nil => intro a all emits; simpa using emits
  | cons event _ ih =>
    intro a all emits
    simpa using ih (emits.emit event)

/-! ### A whole attempt -/

structure Speaks (possible : Bool) (base : List StreamEvent) (mapping : Mapping) (a : Attempt) : Prop where
  emits : ∃ lead, (∀ event ∈ lead, isInner event = false) ∧ Emits possible (base ++ lead) (mapping.flatMap (·.2)) a
  idle : a.started_step = false → mapping = []
  denoted : ∀ kind id, a.state.open_ids.lookup kind id = denotes mapping kind id
  carried : Carried mapping

theorem Speaks.map_part (speaks : Speaks stream.retries_possible base mapping a) (started : a.started_step = true)
    (mapped : a.map_part ctx inputs stream part = .ok (a',events)) :
    Speaks stream.retries_possible base (mapping ++ [(part,events)])
      (events.foldl (Attempt.emit stream.retries_possible) a') := by
  obtain ⟨⟨lead,outer,emits⟩,_,denoted,carried⟩ := speaks
  obtain ⟨renamed,carries_,_⟩ := map_part_names mapped
  have frame := map_part_frame mapped
  obtain ⟨-,open_ids,begun,-⟩ := emit_frame stream.retries_possible events a'
  refine ⟨⟨lead,outer,?_⟩,?_,?_,?_⟩
  · rw [flatMap_append,flatMap_singleton]
    refine Emits.emit_all events ?_
    obtain ⟨emitted,sent,whole,isOpen,holds⟩ := emits
    refine ⟨emitted,by rw [frame.sent,sent],by rw [frame.buffer,whole],?_,by rw [frame.buffer]; exact holds⟩
    intro kind id member
    refine isOpen kind id ?_
    cases kind with
    | text => simpa only [opened,frame.open_text] using member
    | reasoning => simpa only [opened,frame.open_reasoning] using member
  · rw [begun,frame.started_step,started]
    intro impossible
    cases impossible
  · intro kind id
    rw [open_ids,renamed,denoted,denotes_append]
  · refine carried.append fun event member kind mapped same => ?_
    obtain ⟨id,continues,there⟩ := carries_ event member kind mapped same
    exact ⟨id,continues,denoted kind id ▸ there⟩

section
variable {possible : Bool} {base : List StreamEvent} {mapping : Mapping}

theorem Speaks.announce (speaks : Speaks possible base [] a) (event : StreamEvent)
    (warnings : List Warning) (outer : isInner event = false) (sent : b.sent = a.sent ++ [event])
    (state : b.state = { a.state with warnings }) : Speaks possible base [] b := by
  obtain ⟨⟨lead,leads,_,whole,all,isOpen,holds⟩,-,denoted,carried⟩ := speaks
  obtain ⟨rfl,_⟩ := List.append_eq_nil_iff.mp all
  refine ⟨⟨lead ++ [event],?_,[],?_,?_,?_,?_⟩,fun _ => rfl,?_,carried⟩
  · intro other mem
    rcases mem_append.mp mem with old | new
    · exact leads other old
    · rw [mem_singleton.mp new]
      exact outer
  · rw [sent,whole]
    simp
  · rw [state]
    exact all
  · intro kind id mem
    refine isOpen kind id ?_
    cases kind <;> simpa only [opened,state] using mem
  · rw [state]
    exact holds
  · rw [state]
    exact denoted

section
variable (speaks : Speaks possible base mapping a)
include speaks

theorem Speaks.warned {warnings : List Warning} :
    Speaks possible base mapping { a with state := { a.state with warnings } } := by
  obtain ⟨⟨lead,leads,emitted,whole,all,isOpen,holds⟩,idle,denoted,carried⟩ := speaks
  refine ⟨⟨lead,leads,emitted,whole,all,?_,holds⟩,idle,denoted,carried⟩
  intro kind id member
  refine isOpen kind id ?_
  cases kind <;> exact member

theorem Speaks.stop : ∃ rest, a.sent = base ++ rest ∧ Spoken mapping rest := by
  obtain ⟨⟨lead,leads,emitted,whole,all,-,-⟩,-,-,-⟩ := speaks
  refine ⟨lead ++ emitted,by rw [whole,append_assoc],lead,emitted,[],by simp,leads,⟨a.state.buffer,all⟩,by simp⟩

theorem Speaks.flush :
    ∃ rest, a.flush_buffer.sent = base ++ rest ∧ Spoken mapping rest := by
  obtain ⟨⟨lead,leads,_,whole,all,-,-⟩,-,-,-⟩ := speaks
  obtain ⟨_,_,flushed⟩ := flush_buffer_frame a
  refine ⟨lead ++ mapping.flatMap (·.2),?_,lead,mapping.flatMap (·.2),[],by simp,leads,prefix_rfl,by simp⟩
  rw [flushed,← all]
  simp [whole]

theorem Speaks.discard (sent : b.sent = a.sent)
    (open_text : b.state.open_text = a.state.open_text) (open_reasoning : b.state.open_reasoning = a.state.open_reasoning) :
    ∃ rest, b.close_open_parts.sent = base ++ rest ∧ Spoken mapping rest := by
  obtain ⟨⟨lead,leads,emitted,whole,all,isOpen,-⟩,-,-,-⟩ := speaks
  refine ⟨lead ++ emitted ++ (a.state.open_text.map (StreamEvent.TextEnd · none) ++
    a.state.open_reasoning.map (StreamEvent.ReasoningEnd · none)),?_,lead,emitted,_,rfl,leads,⟨a.state.buffer,all⟩,?_⟩
  · rw [close_open_parts,send_all_frame]
    simp [sent,whole,open_text,open_reasoning]
  · intro event mem
    rcases mem_append.mp mem with text | reasoning
    · obtain ⟨id,there,rfl⟩ := mem_map.mp text
      exact ⟨.text,id,rfl,isOpen .text id there⟩
    · obtain ⟨id,there,rfl⟩ := mem_map.mp reasoning
      exact ⟨.reasoning,id,rfl,isOpen .reasoning id there⟩

end

end

def Attempt.ready (a : Attempt) (pending_boundary : Bool) (part : StreamPart) : Attempt :=
  let a := if pending_boundary then a.emit_boundary (Attempt.streamStartWarnings part) else a
  if a.started_step then a else a.emit_start_step

theorem read_attempt_mapped (content : isControl part = false) :
    a.read_attempt ctx inputs stream pending_boundary (part :: rest) =
      match (a.ready pending_boundary part).map_part ctx inputs stream part with
      | .error error => (a.ready pending_boundary part,.error error)
      | .ok (a,events) =>
        Attempt.read_attempt ctx inputs stream (events.foldl (Attempt.emit stream.retries_possible) a) false rest := by
  cases part with
  | StreamStart | Error | Finish => cases content
  | _ =>
    rw [Attempt.read_attempt]
    · rfl
    all_goals simp

theorem mapping_mapped (content : isControl part = false) :
    a.mapping ctx inputs stream pending_boundary (part :: rest) =
      match (a.ready pending_boundary part).map_part ctx inputs stream part with
      | .error _ => []
      | .ok (a,events) => (part,events) ::
        Attempt.mapping ctx inputs stream (events.foldl (Attempt.emit stream.retries_possible) a) false rest := by
  cases part with
  | StreamStart | Error | Finish => cases content
  | _ =>
    rw [Attempt.mapping]
    · rfl
    all_goals simp

theorem Speaks.bounded
    (speaks : Speaks possible base mapping a) (first : pending_boundary = true → mapping = []) (part : StreamPart) :
    Speaks possible base mapping (if pending_boundary = true then a.emit_boundary (Attempt.streamStartWarnings part) else a) := by
  split_ifs with pending
  · obtain rfl := first pending
    exact speaks.announce (.RetryAttempt a.attempt (streamStartWarnings part)) _ rfl rfl rfl
  · exact speaks

theorem Speaks.ready
    (speaks : Speaks possible base mapping a) (first : pending_boundary = true → mapping = []) (part : StreamPart) :
    Speaks possible base mapping (a.ready pending_boundary part) := by
  have bounded := speaks.bounded first part
  unfold Attempt.ready
  generalize (if pending_boundary = true then a.emit_boundary (streamStartWarnings part) else a) = c at bounded
  dsimp only
  split_ifs with started
  · exact bounded
  · obtain rfl := bounded.idle (by simpa using started)
    exact bounded.announce (.StartStep c.state.warnings) c.state.warnings rfl rfl rfl

theorem read_attempt_spoken (parts : List StreamPart) : ∀ {a : Attempt} {pending_boundary : Bool}
    {mapping : Mapping}, Speaks stream.retries_possible base mapping a → (pending_boundary = true → mapping = []) →
    (∃ rest, (a.read_attempt ctx inputs stream pending_boundary parts).1.sent = base ++ rest ∧
      Spoken (mapping ++ a.mapping ctx inputs stream pending_boundary parts) rest) ∧
    Carried (mapping ++ a.mapping ctx inputs stream pending_boundary parts) := by
  induction parts with
  | nil =>
    intro a pending_boundary mapping speaks first
    rw [Attempt.mapping,append_nil,Attempt.read_attempt]
    refine ⟨?_,speaks.carried⟩
    split_ifs with pending
    · obtain rfl := first pending
      exact (speaks.announce (.RetryAttempt a.attempt []) [] rfl rfl rfl).flush
    · exact speaks.flush
  | cons part rest ih =>
    intro a pending_boundary mapping speaks first
    have bounded := speaks.bounded first part
    have ready := speaks.ready first part
    have started : (a.ready pending_boundary part).started_step = true := by
      unfold Attempt.ready
      dsimp only
      split_ifs <;> first | assumption | rfl
    cases control : isControl part with
    | false =>
      rw [read_attempt_mapped control,mapping_mapped control]
      cases mapped : (a.ready pending_boundary part).map_part ctx inputs stream part with
      | error =>
        simp only [append_nil]
        exact ⟨ready.stop,ready.carried⟩
      | ok result =>
        obtain ⟨b,_⟩ := result
        have later := @ih _ false _ (ready.map_part started mapped) (by simp)
        simpa only [append_assoc,singleton_append] using later
    | true =>
      cases part with
      | StreamStart =>
        rw [Attempt.read_attempt,Attempt.mapping]
        exact @ih _ false _ bounded.warned (by simp)
      | Error error =>
        have read : a.read_attempt ctx inputs stream pending_boundary (.Error error :: rest) =
            (a.ready pending_boundary (.Error error)).handle_stream_error stream error := by
          rw [Attempt.read_attempt]
          rfl
        have none_ : a.mapping ctx inputs stream pending_boundary (.Error error :: rest) = [] := rfl
        rw [read,none_,append_nil]
        refine ⟨?_,ready.carried⟩
        unfold handle_stream_error
        split_ifs
        · exact ready.discard rfl rfl rfl
        · exact ready.discard rfl rfl rfl
        · exact ready.flush
      | Finish finish_reason usage metadata =>
        have read : (a.read_attempt ctx inputs stream pending_boundary (.Finish finish_reason usage metadata :: rest)).1 =
            (a.ready pending_boundary (.Finish finish_reason usage metadata)).flush_buffer := by
          rw [Attempt.read_attempt]
          rfl
        have none_ : a.mapping ctx inputs stream pending_boundary (.Finish finish_reason usage metadata :: rest) = [] := rfl
        rw [read,none_,append_nil]
        exact ⟨ready.flush,ready.carried⟩
      | _ => cases control

theorem speaks_new (state : a.state = .new) : Speaks possible a.sent [] a where
  emits := by
    refine ⟨[],by simp,[],by simp,by simp [state,AttemptState.new],?_,fun _ => by simp [state,AttemptState.new]⟩
    intro kind id isOpen
    cases kind <;> simp [opened,state,AttemptState.new] at isOpen
  idle := fun _ => rfl
  denoted := by simp [state,AttemptState.new,denotes]
  carried := by simp [Carried]

theorem read_spoken (streams : List (List StreamPart)) : ∀ {a : Attempt} {pending_boundary : Bool}, a.state = .new →
    (∃ pieces : List (List StreamEvent), (a.read ctx inputs stream pending_boundary streams).1.sent = a.sent ++ pieces.flatten ∧
      List.Forall₂ Spoken (a.mappings ctx inputs stream pending_boundary streams) pieces) ∧
    ∀ mapping ∈ a.mappings ctx inputs stream pending_boundary streams, Carried mapping := by
  induction streams with
  | nil => exact fun _ => ⟨⟨[],by simp [Attempt.read],.nil⟩,by simp [mappings]⟩
  | cons parts _ ih =>
    intro a pending_boundary state
    obtain ⟨⟨rest,sent,spoken⟩,carried⟩ := @read_attempt_spoken ctx inputs stream a.sent parts a pending_boundary []
      (speaks_new state) fun _ => rfl
    rw [Attempt.read,mappings]
    rw [nil_append] at spoken carried
    generalize a.read_attempt ctx inputs stream pending_boundary parts = outcome at sent
    obtain ⟨b,outcome⟩ := outcome
    cases outcome with
    | error =>
      refine ⟨⟨[rest],by simpa using sent,.cons spoken .nil⟩,?_⟩
      simpa using carried
    | ok outcome =>
      cases outcome with
      | Finished =>
        refine ⟨⟨[rest],by simpa using sent,.cons spoken .nil⟩,?_⟩
        simpa using carried
      | Retry =>
        obtain ⟨⟨pieces,whole,all⟩,others⟩ := @ih { b with state := .new } true rfl
        refine ⟨⟨rest :: pieces,?_,.cons spoken all⟩,?_⟩
        · simp only [whole]
          simp only at sent
          simp [sent]
        · intro mapping mem
          rcases mem_cons.mp mem with rfl | mem
          · exact carried
          · exact others mapping mem

theorem startIds_append (before after : List StreamEvent) : startIds (before ++ after) = startIds before ++ startIds after := by
  simp [startIds]

structure Reserved (used : List PartId) (a : Attempt) : Prop where
  distinct : (startIds (a.sent ++ a.state.buffer)).Nodup
  fresh : ∀ id ∈ startIds (a.sent ++ a.state.buffer), id ∈ a.used_ids ∧ id ∉ used
  grows : used ⊆ a.used_ids

section
variable (reserved : Reserved used a)
include reserved

theorem Reserved.congr (ids : b.used_ids = a.used_ids)
    (events : (startIds (b.sent ++ b.state.buffer)).Sublist (startIds (a.sent ++ a.state.buffer))) : Reserved used b where
  distinct := reserved.distinct.sublist events
  fresh := by
    rw [ids]
    exact fun id member => reserved.fresh id (events.subset member)
  grows := by
    rw [ids]
    exact reserved.grows

theorem Reserved.map_part
    (mapped : a.map_part ctx inputs stream part = .ok (a',events)) :
    Reserved used (events.foldl (Attempt.emit stream.retries_possible) a') := by
  have frame := map_part_frame mapped
  obtain ⟨ids,-,-,perm⟩ := emit_frame stream.retries_possible events a'
  obtain ⟨-,-,new⟩ := map_part_names mapped
  have sent : (startIds ((events.foldl (Attempt.emit stream.retries_possible) a').sent ++
      (events.foldl (Attempt.emit stream.retries_possible) a').state.buffer)).Perm
      (startIds (a.sent ++ a.state.buffer) ++ startIds events) := by
    rw [← startIds_append,← frame.sent,← frame.buffer]
    exact (perm.filterMap starts).map (·.2)
  obtain ⟨distinct,fresh,grows⟩ := reserved
  have whole : (startIds (a.sent ++ a.state.buffer) ++ startIds events).Nodup ∧
      (∀ id ∈ startIds (a.sent ++ a.state.buffer) ++ startIds events, id ∈ a'.used_ids ∧ id ∉ used) ∧
      used ⊆ a'.used_ids := by
    rcases new with ⟨none_,same⟩ | ⟨id,one,unused,grown⟩
    · rw [none_,same,append_nil]
      exact ⟨distinct,fresh,grows⟩
    · rw [one,grown]
      refine ⟨?_,?_,fun id mem => mem_cons_of_mem _ (grows mem)⟩
      · rw [nodup_append]
        refine ⟨distinct,nodup_singleton _,?_⟩
        rintro other mem _ new rfl
        rw [mem_singleton.mp new] at mem
        exact unused (fresh id mem).1
      · intro other mem
        rcases mem_append.mp mem with old | new
        · exact ⟨mem_cons_of_mem _ (fresh other old).1,(fresh other old).2⟩
        · rw [mem_singleton.mp new]
          exact ⟨mem_cons_self,fun taken => unused (grows taken)⟩
  refine ⟨sent.nodup_iff.mpr whole.1,?_,?_⟩
  · rw [ids]
    exact fun id mem => whole.2.1 id (sent.subset mem)
  · rw [ids]
    exact whole.2.2

theorem Reserved.send (more : List StreamEvent)
    (ids : b.used_ids = a.used_ids) (sent : b.sent = a.sent ++ more) (none_ : startIds more = [])
    (buffer : b.state.buffer = a.state.buffer ∨ b.state.buffer = []) : Reserved used b := by
  refine reserved.congr ids ?_
  rw [sent,startIds_append,startIds_append,startIds_append,none_,append_nil]
  rcases buffer with same | gone
  · rw [same]
  · rw [gone]
    simp [startIds]

theorem Reserved.ready (pending_boundary : Bool) (part : StreamPart) :
    Reserved used (a.ready pending_boundary part) := by
  have bounded : Reserved used
      (if pending_boundary = true then a.emit_boundary (streamStartWarnings part) else a) := by
    split_ifs
    · exact reserved.send [.RetryAttempt a.attempt (streamStartWarnings part)] rfl rfl rfl (.inl rfl)
    · exact reserved
  unfold Attempt.ready
  generalize (if pending_boundary = true then a.emit_boundary (streamStartWarnings part) else a) = c at bounded
  dsimp only
  split_ifs
  · exact bounded
  · exact bounded.send [.StartStep c.state.warnings] rfl rfl rfl (.inl rfl)

theorem Reserved.flush : Reserved used a.flush_buffer := by
  obtain ⟨_,_,flushed⟩ := flush_buffer_frame a
  refine reserved.congr (by rw [flushed]) ?_
  rw [flushed]
  simp

end

theorem Reserved.discard (b : Attempt) (reserved : Reserved used a) (sent : b.sent = a.sent)
    (ids : b.used_ids = a.used_ids) (buffer : b.state.buffer = []) : Reserved used b.close_open_parts := by
  rw [close_open_parts,send_all_frame]
  refine reserved.send _ ids (by rw [← sent]) ?_ (.inr buffer)
  simp [startIds,starts,filterMap_map,Function.comp_def]

theorem Reserved.stream_error {error : StreamError} (reserved : Reserved used a) :
    Reserved used (a.handle_stream_error stream error).1 := by
  unfold handle_stream_error
  split_ifs
  · have closed := reserved.discard { a with
      automatic_retries := a.automatic_retries + 1
      state := { a.state with buffer := [] } } rfl rfl rfl
    exact ⟨closed.distinct,closed.fresh,closed.grows⟩
  · have closed := reserved.discard { a with
      callback_retries := a.callback_retries + 1
      state := { a.state with buffer := [] } } rfl rfl rfl
    exact ⟨closed.distinct,closed.fresh,closed.grows⟩
  · exact reserved.flush

theorem Reserved.read_attempt (parts : List StreamPart) : ∀ {a : Attempt} (pending_boundary : Bool),
    Reserved used a → Reserved used (a.read_attempt ctx inputs stream pending_boundary parts).1 := by
  induction parts with
  | nil =>
    intro a pending_boundary reserved
    rw [Attempt.read_attempt]
    split_ifs
    · exact Reserved.flush (reserved.send [.RetryAttempt a.attempt []] rfl rfl rfl (.inl rfl))
    · exact reserved.flush
  | cons part rest ih =>
    intro a pending_boundary reserved
    have ready := reserved.ready pending_boundary part
    cases control : isControl part with
    | false =>
      rw [read_attempt_mapped control]
      cases mapped : (a.ready pending_boundary part).map_part ctx inputs stream part with
      | error => exact ready
      | ok => exact ih false (ready.map_part mapped)
    | true =>
      cases part with
      | StreamStart warnings =>
        rw [Attempt.read_attempt]
        refine ih false ?_
        split_ifs
        · exact reserved.send [.RetryAttempt a.attempt warnings] rfl rfl rfl (.inl rfl)
        · exact reserved.congr rfl (List.Sublist.refl _)
      | Error error =>
        have read : a.read_attempt ctx inputs stream pending_boundary (.Error error :: rest) =
            (a.ready pending_boundary (.Error error)).handle_stream_error stream error := by
          rw [Attempt.read_attempt]
          rfl
        rw [read]
        exact ready.stream_error
      | Finish finish_reason usage metadata =>
        have read : (a.read_attempt ctx inputs stream pending_boundary (.Finish finish_reason usage metadata :: rest)).1 =
            (a.ready pending_boundary (.Finish finish_reason usage metadata)).flush_buffer := by
          rw [Attempt.read_attempt]
          rfl
        rw [read]
        exact ready.flush
      | _ => cases control

theorem Reserved.read (streams : List (List StreamPart)) : ∀ {a : Attempt} (pending_boundary : Bool),
    Reserved used a → Reserved used (a.read ctx inputs stream pending_boundary streams).1 := by
  induction streams with
  | nil => exact fun _ reserved => reserved
  | cons parts _ ih =>
    intro a pending_boundary reserved
    have attempt := @Reserved.read_attempt ctx inputs stream used parts a pending_boundary reserved
    rw [Attempt.read]
    generalize a.read_attempt ctx inputs stream pending_boundary parts = outcome at attempt
    obtain ⟨b,outcome⟩ := outcome
    cases outcome with
    | error => exact attempt
    | ok outcome =>
      cases outcome with
      | Finished => exact attempt
      | Retry =>
        refine ih true (attempt.congr rfl ?_)
        simp [AttemptState.new,startIds_append]

theorem reserved_new (used : List PartId) : Reserved used (.new used) where
  distinct := List.nodup_nil
  fresh := by simp [new,AttemptState.new,startIds]
  grows := fun _ member => member

end

/-! ### The whole call -/

structure StageReserved (stage : Stage) : Prop where
  distinct : (startIds (stage.sent ++ stage.buffer)).Nodup
  taken : ∀ id ∈ startIds (stage.sent ++ stage.buffer), id ∈ stage.used_part_ids

theorem startIds_contents (contents : List StepContent) : startIds (contents.filterMap content_event) = [] := by
  rw [startIds,map_eq_nil_iff,filterMap_eq_nil_iff]
  exact fun event member => (content_plain _ member).2

section
variable {ctx : LoopContext} {config : CallConfig} {stage_config : StageConfig} {stage stage' : Stage}

variable {duration_ms : ToolCallId → Nat}

theorem start_reserved (started : Stage.start ctx config duration_ms = .ok stage) : StageReserved stage := by
  obtain ⟨replay,-,started⟩ := bind_ok.mp started
  cases started
  have none_ := startIds_contents replay
  exact ⟨by simp [none_],by simp [none_]⟩

theorem StageReserved.read (reserved : StageReserved stage) (ctx : LoopContext) (inputs : StepInputs) (stream : StreamConfig)
    (streams : List (List StreamPart)) :
    let a := ((Attempt.new stage.used_part_ids).read ctx inputs stream false streams).1
    (startIds (stage.sent ++ stage.buffer ++ a.sent)).Nodup ∧
      ∀ id ∈ startIds (stage.sent ++ stage.buffer ++ a.sent), id ∈ a.used_ids := by
  intro a
  obtain ⟨distinct,taken⟩ := reserved
  obtain ⟨own,fresh,grows⟩ : Reserved stage.used_part_ids a := (reserved_new _).read streams false
  rw [startIds_append] at own fresh
  rw [startIds_append (stage.sent ++ stage.buffer)]
  refine ⟨?_,?_⟩
  · refine List.nodup_append.mpr ⟨distinct,(List.nodup_append.mp own).1,?_⟩
    rintro id mem _ new rfl
    exact (fresh id (mem_append_left _ new)).2 (taken id mem)
  · intro id mem
    rcases mem_append.mp mem with old | new
    · exact grows (taken id old)
    · exact (fresh id (mem_append_left _ new)).1

theorem StageReserved.turn {turn : StreamTurn} (reserved : StageReserved stage)
    (done : Stage.turn ctx config stage_config stage turn = .ok stage') : StageReserved stage' := by
  obtain ⟨prepared,-,done⟩ := bind_ok.mp done
  obtain ⟨_,ran,done⟩ := bind_ok.mp done
  obtain ⟨_,-,done⟩ := bind_ok.mp done
  cases done
  have whole := reserved.read ctx prepared.inputs stage_config.stream turn.streams
  have ran := fallible_ok.mp ran
  unfold Stage.run_step at ran
  simp only at whole
  split at ran
  case h_1 => cases ran
  case h_2 attempt result read =>
    obtain ⟨outputs,-,ran⟩ := bind_ok.mp ran
    cases ran
    rw [read] at whole
    have more : startIds (outputs.filterMap content_event ++ [StreamEvent.FinishStep result.finish_reason]) = [] := by
      rw [startIds_append,startIds_contents]
      rfl
    have same : startIds (stage.sent ++ (stage.buffer ++ (attempt.sent ++ outputs.filterMap content_event ++
        [.FinishStep result.finish_reason])) ++ []) = startIds (stage.sent ++ stage.buffer ++ attempt.sent) := by
      rw [append_nil,append_assoc attempt.sent,← append_assoc stage.buffer,← append_assoc stage.sent,
        ← append_assoc stage.sent,startIds_append _ (_ ++ [_]),more,append_nil]
    exact ⟨same ▸ whole.1,same ▸ whole.2⟩

theorem run_reserved {turns : List StreamTurn} (started : Stage.start ctx config duration_ms = .ok stage)
    (ran : stage.run ctx config stage_config turns = .ok stage') : StageReserved stage' :=
  Runs.loop_invariant (fun _ _ _ _ reserved done => reserved.turn done) (start_reserved started) ran

/-- At any point of a call and in whatever the model streams next, over all attempts, and however the step ends: no id
    starts two parts of the event stream; what is sent of each attempt are the events that its parts are mapped to;
    and of these every delta and end goes by the id of the part that the provider's id stands for. -/
theorem part_ids_unique {initial : Stage} {duration_ms : ToolCallId → Nat} {turns : List StreamTurn}
    (started : Stage.start ctx config duration_ms = .ok initial)
    (ran : initial.run ctx config stage_config turns = .ok stage) (inputs : StepInputs) (stream : StreamConfig)
    (streams : List (List StreamPart)) :
    let a := Attempt.new stage.used_part_ids
    let sent := (a.read ctx inputs stream false streams).1.sent
    (startIds (stage.sent ++ stage.buffer ++ sent)).Nodup ∧
    (∃ pieces : List (List StreamEvent), sent = pieces.flatten ∧
      List.Forall₂ Spoken (a.mappings ctx inputs stream false streams) pieces) ∧
    ∀ mapping ∈ a.mappings ctx inputs stream false streams, Carried mapping := by
  obtain ⟨pieces,carried⟩ := @read_spoken ctx inputs stream streams (.new stage.used_part_ids) false rfl
  exact ⟨((run_reserved started ran).read ctx inputs stream streams).1,pieces,carried⟩

end

def saysTurn : StreamTurn where
  overrides := .ok .default
  streams := [[.TextStart "0" none,.TextEnd "0" none,.ToolCall (.new "c" "search" ""),.Finish (.new .ToolCalls) .default none]]
  schedule := .inOrder
  duration_ms := fun _ => 0
  stop := false

/-- The next step takes the same id, is retried, and takes it again beside an id that looks like a reserved one. -/
theorem part_ids_unique_again :
    let ctx := LoopContext.plain [("search",plainTool .null)] none
    let config := CallConfig.plain [("search",plainTool .null)] [.User (.Text "go") none]
    let streams : List (List StreamPart) := [[.TextStart "0" none,.Error (.new "overloaded")],
      [.TextStart "0-1" none,.ReasoningStart "0" none,.ReasoningDelta "0" "so" none,.Finish (.new .Stop) .default none]]
    ∃ initial stage, Stage.start ctx config (fun _ => 0) = .ok initial ∧
      initial.run ctx config ⟨⟨false,some 1,none⟩,.none⟩ [saysTurn] = .ok stage ∧
      let sent := ((new stage.used_part_ids).read ctx (StepInputs.plain [("search",plainTool .null)])
        ⟨false,some 1,none⟩ false streams).1.sent
      startIds (stage.sent ++ stage.buffer ++ sent) = ["0","0-1","0-1-1","0-2"] ∧
      (startIds (stage.sent ++ stage.buffer ++ sent)).Nodup ∧ .ReasoningDelta "0-2" "so" none ∈ sent := by
  intro ctx config streams
  have check : ((Stage.start ctx config (fun _ => 0)).toOption.any fun initial =>
      (initial.run ctx config ⟨⟨false,some 1,none⟩,.none⟩ [saysTurn]).toOption.any fun stage =>
        let sent := ((new stage.used_part_ids).read ctx (StepInputs.plain [("search",plainTool .null)])
          ⟨false,some 1,none⟩ false streams).1.sent
        decide (startIds (stage.sent ++ stage.buffer ++ sent) = ["0","0-1","0-1-1","0-2"]) &&
          decide (.ReasoningDelta "0-2" "so" none ∈ sent)) = true := by
    decide
  obtain ⟨initial,started,check⟩ := toOption_any.mp check
  obtain ⟨stage,ran,check⟩ := toOption_any.mp check
  obtain ⟨ids,said⟩ := (Bool.and_eq_true _ _).mp check
  exact ⟨initial,stage,started,ran,of_decide_eq_true ids,
    (part_ids_unique started ran (.plain [("search",plainTool .null)]) ⟨false,some 1,none⟩ streams).1,of_decide_eq_true said⟩

end Ferrin.StreamText
