import Ferrin.Sse

/-!
The stream of events of a response body. Chunks are fed to the decoder as they
arrive and their events wait until they are asked for; the first error ends the
stream. A chunk in which an event exceeds the size limit yields the error alone:
the events it finished before are lost (`decode_stream_too_large`).
-/
namespace Ferrin.Sse
open Ferrin.EventStream List SseDecoder
open Reader (start)
open Prod (fst)

/-- The errors of a stream over a body whose transport fails with `E`. -/
inductive SseStreamError (E : Type) where
  | Transport (error : E)
  | Decode (error : SseError)

section
variable {E : Type}

/-- The state of the stream. What the body still sends is a list of chunks or
    failures, each with the time at which it is received. -/
structure State (E : Type) where
  body : List (Except E (List UInt8) × Nat)
  decoder : SseDecoder
  pending : List SseEvent
  done : Bool

abbrev Item (E : Type) := Except (SseStreamError E) SseEvent

def stamp (now : Nat) (event : SseEvent) : SseEvent := { event with received_at := some now }

/-- The loop that asks the body once nothing is pending. At the end of the body
    the unfinished event is discarded, so nothing is pending then either. -/
def poll (decoder : SseDecoder) : List (Except E (List UInt8) × Nat) → Option (Item E × State E)
  | [] => none
  | (.ok chunk,now) :: body =>
    match decoder.feed chunk with
    | .ok (decoder,events) =>
      match events.map (stamp now) with
      | event :: pending => some (.ok event,⟨body,decoder,pending,false⟩)
      | [] => poll decoder body
    | .error error => some (.error (.Decode error),⟨body,decoder,[],true⟩)
  | (.error error,_) :: body => some (.error (.Transport error),⟨body,decoder,[],true⟩)

def State.next (s : State E) : Option (Item E × State E) :=
  match s.pending with
  | event :: pending => some (.ok event,{ s with pending })
  | [] => if s.done then none else poll s.decoder s.body

variable {decoder d : SseDecoder} {item : Item E} {s : State E} {chunk : List UInt8} {max : Nat} {byte : UInt8}

theorem poll_shorter {body : List (Except E (List UInt8) × Nat)}
    (polled : poll decoder body = some (item,s)) : s.body.length < body.length := by
  induction body generalizing decoder with
  | nil => cases polled
  | cons received _ ih =>
    obtain ⟨_ | _,_⟩ := received
    · cases polled
      exact Nat.lt_succ_self _
    · rw [poll] at polled
      split at polled
      · split at polled
        · cases polled
          exact Nat.lt_succ_self _
        · exact Nat.lt_succ_of_lt (ih polled)
      · cases polled
        exact Nat.lt_succ_self _

theorem next_decreases {s' : State E} (asked : s.next = some (item,s')) :
    Prod.Lex (· < ·) (· < ·) (s'.body.length,s'.pending.length) (s.body.length,s.pending.length) := by
  rw [State.next] at asked
  split at asked
  · rename_i waiting
    cases asked
    exact .right _ (by simp [waiting])
  · split_ifs at asked
    exact .left _ _ (poll_shorter asked)

def State.items (s : State E) : List (Item E) :=
  match _asked : s.next with
  | none => []
  | some (item,s') => item :: s'.items
termination_by (s.body.length,s.pending.length)
decreasing_by exact next_decreases _asked

def decode_stream (body : List (Except E (List UInt8) × Nat)) (max_event_bytes : Nat) : List (Item E) :=
  State.items ⟨body,SseDecoder.new.with_max_event_bytes max_event_bytes,[],false⟩

theorem items_none (asked : s.next = none) : s.items = [] := by
  rw [State.items]
  split
  · rfl
  · rename_i more
    cases asked.symm.trans more

theorem items_some {t : State E} (asked : s.next = some (item,t)) : s.items = item :: t.items := by
  rw [State.items]
  split
  · rename_i nothing
    cases asked.symm.trans nothing
  · rename_i more
    cases asked.symm.trans more
    rfl

theorem items_pending (body : List (Except E (List UInt8) × Nat)) (decoder : SseDecoder) (pending : List SseEvent) :
    State.items ⟨body,decoder,pending,false⟩ = pending.map .ok ++ State.items ⟨body,decoder,[],false⟩ := by
  induction pending with
  | nil => rfl
  | cons _ rest ih => rw [items_some (t := ⟨body,decoder,rest,false⟩) rfl,ih]; rfl

theorem items_chunk {decoder' : SseDecoder} {events : List SseEvent}
    (fed : decoder.feed chunk = .ok (decoder',events)) (now : Nat) (body : List (Except E (List UInt8) × Nat)) :
    State.items ⟨(.ok chunk,now) :: body,decoder,[],false⟩ =
      (events.map (stamp now)).map .ok ++ State.items ⟨body,decoder',[],false⟩ := by
  cases events with
  | nil =>
    have same : State.next ⟨(.ok chunk,now) :: body,decoder,[],false⟩ = State.next (E := E) ⟨body,decoder',[],false⟩ := by
      simp [State.next,poll,fed]
    cases asked : State.next (E := E) ⟨body,decoder',[],false⟩ with
    | none => rw [items_none (same.trans asked),items_none asked]; rfl
    | some => rw [items_some (same.trans asked),items_some asked]; rfl
  | cons event rest =>
    have asked : State.next (E := E) ⟨(.ok chunk,now) :: body,decoder,[],false⟩ =
        some (.ok (stamp now event),⟨body,decoder',rest.map (stamp now),false⟩) := by
      simp [State.next,poll,fed]
    rw [items_some asked,items_pending]
    rfl

theorem items_refused {error : SseError} (fed : decoder.feed chunk = .error error)
    (now : Nat) (body : List (Except E (List UInt8) × Nat)) :
    State.items ⟨(.ok chunk,now) :: body,decoder,[],false⟩ = [.error (.Decode error)] := by
  have asked : State.next (E := E) ⟨(.ok chunk,now) :: body,decoder,[],false⟩ =
      some (.error (.Decode error),⟨body,decoder,[],true⟩) := by
    simp [State.next,poll,fed]
  rw [items_some asked,items_none rfl]

/-! ### The size limit -/

def finishedBefore (max : Nat) : Reader → List (List UInt8) → Option (List Event)
  | _, [] => none
  | r, line :: rest =>
    if line = [] ∨ line.length + len r.data ≤ max then
      (finishedBefore max (r.line fits (Utf8.decode line)).1 rest).map
        ((r.line fits (Utf8.decode line)).2.toList ++ ·)
    else some []

def unstamped : Item E → Item E
  | .ok event => .ok { event with received_at := none }
  | .error error => .error error

/-- The events that end before the one that is too large all end in chunks before
    the one in which it exceeds the limit. -/
def FinishedEarlier (max : Nat) (chunks : List (List UInt8)) (events : List Event) : Prop :=
  ∃ earlier chunk later, chunks = earlier ++ chunk :: later ∧
    WithinLimit max start (measured earlier.flatten) ∧
    ¬ WithinLimit max start (measured (earlier.flatten ++ chunk)) ∧ parse fits earlier.flatten = events

theorem not_within_of_finishedBefore {rows : List (List UInt8)} {r r' : Reader} {events : List Event}
    (same : r.data = r'.data) (spent : finishedBefore max r rows = some events) : ¬ WithinLimit max r' rows := by
  induction rows generalizing r r' events with
  | nil => cases spent
  | cons _ _ ih =>
    rw [finishedBefore] at spent
    rintro ⟨fit,within⟩
    rw [same,if_pos fit,Option.map_eq_some_iff] at spent
    obtain ⟨_,spent,rfl⟩ := spent
    exact ih (line_data fits same _) spent within

theorem feed_byte_error {e : SseError} (refused : d.feed_byte byte = .error e) :
    e = .EventTooLarge d.max_event_bytes := by
  unfold feed_byte feed_checked at refused
  grind

theorem feed_byte_max {d' : SseDecoder} {event : Option SseEvent}
    (fed : d.feed_byte byte = .ok (d',event)) : d'.max_event_bytes = d.max_event_bytes := by
  unfold feed_byte feed_checked at fed
  simp only [process_line_reads] at fed
  split_ifs at fed <;> cases fed <;> rfl

theorem feed_error {bytes : List UInt8} : ∀ {d : SseDecoder} {e : SseError}, d.feed bytes = .error e →
    e = .EventTooLarge d.max_event_bytes := by
  induction bytes with
  | nil => intro d e refused; cases refused
  | cons _ _ ih =>
    intro d e refused
    rw [feed] at refused
    rcases Result.bind_error.mp refused with now | ⟨⟨_,_⟩,now,refused⟩
    · exact feed_byte_error now
    · rcases Result.bind_error.mp refused with later | ⟨r,_,last⟩
      · rw [← feed_byte_max now]
        exact ih later
      · cases last

/-- A body that arrives in chunks, each at its time. -/
def received (chunks : List (List UInt8 × Nat)) : List (Except E (List UInt8) × Nat) :=
  chunks.map fun chunk => (.ok chunk.1,chunk.2)

theorem items_until_refused (chunks : List (List UInt8 × Nat)) : ∀ {decoder : SseDecoder} {error : SseError},
    decoder.feed (chunks.map fst).flatten = .error error →
      ∃ earlier chunk later decoder' events, chunks.map fst = earlier ++ chunk :: later ∧
        decoder.feed earlier.flatten = .ok (decoder',events) ∧ decoder'.feed chunk = .error error ∧
          (State.items (E := E) ⟨received chunks,decoder,[],false⟩).map unstamped =
            events.map (fun event => unstamped (.ok event)) ++ [.error (.Decode error)] := by
  induction chunks with
  | nil => intro decoder error refused; cases refused
  | cons first rest ih =>
    intro decoder error refused
    rw [map_cons,flatten_cons,feed_append] at refused
    rcases Result.bind_error.mp refused with now | ⟨⟨_,events⟩,fed,refused⟩
    · refine ⟨[],first.1,rest.map fst,decoder,[],rfl,rfl,now,?_⟩
      rw [received,map_cons,items_refused now]
      rfl
    · rcases Result.bind_error.mp refused with refused | ⟨r,_,last⟩
      · obtain ⟨earlier,chunk,later,decoder',events',cut,fed',now,yields⟩ := ih refused
        refine ⟨first.1 :: earlier,chunk,later,decoder',events ++ events',by simp [cut],?_,now,?_⟩
        · rw [flatten_cons,feed_append,fed]
          simp only [bind,Except.bind,fed',pure,Except.pure]
        · rw [received,map_cons,items_chunk fed,map_append]
          rw [received] at yields
          rw [yields,map_append,append_assoc]
          simp [unstamped,stamp]
      · cases last

theorem sseEvent_injective : Function.Injective sseEvent := by
  rintro ⟨_,_,_,_⟩ ⟨_,_,_,_⟩ same
  cases same
  rfl

theorem within_of_append {first more : List UInt8}
    (within : WithinLimit max start (measured (first ++ more))) : WithinLimit max start (measured first) := by
  obtain ⟨r,fed⟩ := Result.exists_ok ((accepted_iff max _).mpr within)
  rw [feed_append] at fed
  obtain ⟨_,before,_⟩ := Result.bind_ok.mp fed
  refine (accepted_iff max first).mp ?_
  rw [before]
  rfl

theorem refused_unique {earlier earlier' later later' : List (List UInt8)} {chunk' : List UInt8}
    (same : earlier ++ chunk :: later = earlier' ++ chunk' :: later')
    (within : WithinLimit max start (measured earlier.flatten))
    (within' : WithinLimit max start (measured earlier'.flatten))
    (refused : ¬ WithinLimit max start (measured (earlier.flatten ++ chunk)))
    (refused' : ¬ WithinLimit max start (measured (earlier'.flatten ++ chunk'))) : earlier = earlier' := by
  rcases List.append_eq_append_iff.mp same with ⟨more,whole,rest⟩ | ⟨more,whole,rest⟩
  · cases more with
    | nil => simpa using whole.symm
    | cons =>
      cases rest
      rw [whole,flatten_append,flatten_cons,← append_assoc] at within'
      exact absurd (within_of_append within') refused
  · cases more with
    | nil => simpa using whole
    | cons =>
      cases rest
      rw [whole,flatten_append,flatten_cons,← append_assoc] at within
      exact absurd (within_of_append within) refused'

/-- A body with an event over the limit yields the events finished before that one
    and then the error exactly when these events are all finished in chunks before
    the one in which the limit is exceeded. -/
theorem decode_stream_too_large (max : Nat) (chunks : List (List UInt8 × Nat)) {events : List Event}
    (spent : finishedBefore max start (measured (chunks.map fst).flatten) = some events) :
    (decode_stream (E := E) (received chunks) max).map unstamped =
        events.map (fun event => .ok (sseEvent event)) ++ [.error (.Decode (.EventTooLarge max))] ↔
      FinishedEarlier max (chunks.map fst) events := by
  have exceeds := not_within_of_finishedBefore rfl spent
  obtain ⟨error,refused⟩ : ∃ error, (SseDecoder.new.with_max_event_bytes max).feed (chunks.map fst).flatten = .error error := by
    cases fed : (SseDecoder.new.with_max_event_bytes max).feed (chunks.map fst).flatten with
    | error error => exact ⟨error,rfl⟩
    | ok r => exact absurd ((accepted_iff max _).mp (by rw [fed]; rfl)) exceeds
  have kind := feed_error refused
  obtain ⟨earlier,chunk,later,decoder,found,cut,fed,now,yields⟩ := items_until_refused (E := E) chunks refused
  have read := accepted_reads fed
  have within : WithinLimit max start (measured earlier.flatten) := (accepted_iff max _).mp (by rw [fed]; rfl)
  have last : ¬ WithinLimit max start (measured (earlier.flatten ++ chunk)) := by
    intro fit
    obtain ⟨r,accepted⟩ := Result.exists_ok ((accepted_iff max _).mpr fit)
    rw [feed_append,fed] at accepted
    simp only [bind,Except.bind,now] at accepted
    cases accepted
  subst kind
  rw [decode_stream,yields,read,map_map]
  constructor
  · intro same
    refine ⟨earlier,chunk,later,cut,within,last,?_⟩
    have items := append_cancel_right same
    refine List.map_injective_iff.mpr ?_ items
    intro a b equal
    exact sseEvent_injective (Except.ok.inj equal)
  · rintro ⟨earlier',chunk',later',cut',within',last',rfl⟩
    obtain rfl := refused_unique (cut.symm.trans cut') within within' last last'
    rfl

end

/-- One event within a limit of 8 bytes and one over it. -/
def oversized : List UInt8 := ascii "data: a\n\ndata: 123456789\n\n"

/-- Cut after its first event, the body yields that event and the error. -/
theorem decode_stream_too_large_cut :
    (decode_stream (E := Empty) (received [(ascii "data: a\n\n",0),(ascii "data: 123456789\n\n",1)]) 8).map unstamped =
      [.ok ⟨none,['a'],none,none,none⟩,.error (.Decode (.EventTooLarge 8))] := by
  have spent : finishedBefore 8 start (measured (ascii "data: a\n\n" ++ ascii "data: 123456789\n\n")) =
      some [⟨none,['a'],none,none⟩] := by
    decide
  exact (decode_stream_too_large 8 [(ascii "data: a\n\n",0),(ascii "data: 123456789\n\n",1)] spent).mpr
    ⟨[ascii "data: a\n\n"],ascii "data: 123456789\n\n",[],rfl,by decide,by decide,by decide⟩

/-- In one chunk, the finished event is lost. -/
theorem finished_event_lost :
    finishedBefore 8 start (measured oversized) = some [⟨none,['a'],none,none⟩] ∧
      decode_stream (E := Empty) (received [(oversized,0)]) 8 = [.error (.Decode (.EventTooLarge 8))] := by
  refine ⟨by decide,items_refused (show _ = Except.error (SseError.EventTooLarge 8) from ?_) 0 []⟩
  decide

end Ferrin.Sse
