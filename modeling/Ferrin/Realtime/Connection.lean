import Ferrin.Library.Runs
import Ferrin.Realtime.ToolTurn

/-!
The connection of a realtime session: a bounded outbound queue that the
connection task alone receives from, and one permit under which events are
serialized and queued. The connection task requests follow-ups through the same
queue, and so it can wait on itself; once it does, it does so for good.
-/
namespace Ferrin.Realtime
open List Function Runs
open Function (update)
open Runs (run)

/-- `Shared::outbound` holds so many messages. -/
def OUTBOUND_BUFFER : Nat := 64

/-- Who sends: the connection task, or another task. -/
inductive Party where
  | Connection
  | Sender (i : Nat)
  deriving DecidableEq

/-- Where a party stands in `RealtimeHandle::send` or `send_raw`. -/
inductive Sending where
  | Idle
  | Acquiring
  | Serializing
  /-- Waiting for a place in the queue, with the permit or without. -/
  | Queueing (raw : JsonValue) (permit : Bool)
  deriving DecidableEq

/-- What the connection task is doing: at its `select!`, writing to the socket, handling the events of a frame, or
requesting a follow-up between two of them. -/
inductive Phase where
  | Selecting
  | Writing
  | Handling (events : List ServerEvent)
  | Requesting (events : List ServerEvent)
  deriving DecidableEq

structure Session where
  queue : List JsonValue
  holder : Option Party
  waiters : List Party
  sending : Party → Sending
  phase : Phase
  turn : ToolTurn

namespace Session

def start : Session := ⟨[],none,[],fun _ => .Idle,.Selecting,.default⟩

/-- `Semaphore::acquire`: the permit, or the end of the line for it. -/
def acquire (s : Session) (p : Party) : Session :=
  match s.holder with
  | none => { s with holder := some p,sending := update s.sending p .Serializing }
  | some _ => { s with waiters := s.waiters ++ [p],sending := update s.sending p .Acquiring }

/-- The permit is dropped, and goes to the first that waits. -/
def release (s : Session) : Session :=
  match s.waiters with
  | [] => { s with holder := none }
  | p :: rest => { s with holder := some p,waiters := rest,sending := update s.sending p .Serializing }

def settle (s : Session) (p : Party) (permit : Bool) : Session :=
  let s := { s with sending := update s.sending p .Idle }
  if permit then s.release else s

/-- A party is through. A follow-up request of the connection task returns to the events that are left. -/
def through (s : Session) (p : Party) (permit : Bool) : Session :=
  match p,s.phase with
  | .Connection,.Requesting events => { s.settle p permit with phase := .Handling events }
  | _,_ => s.settle p permit

end Session

inductive Move where
  /-- A sender calls `send`, or `send_raw`. -/
  | Send (i : Nat)
  | SendRaw (i : Nat) (raw : JsonValue)
  /-- The output of a call has been queued by a sender: `output_submitted`. -/
  | Submitted (i : Nat) (call_id : String)
  /-- The model has serialized an event, to null or a message, or failed to. -/
  | Serialized (p : Party) (result : Option JsonValue)
  /-- A message is queued. -/
  | Queued (p : Party)
  /-- The connection task receives a message, and has written it. -/
  | Receive
  | Written
  /-- A frame arrives. -/
  | Frame (events : List ServerEvent)
  /-- The consumer has taken the event at hand, and the connection task acts on it. -/
  | Handle
  | Handled

/-- One step, where `from_str` parses arguments and `capacity` bounds the queue. -/
def Session.step (from_str : String → Option JsonValue) (capacity : Nat) (s : Session) : Move → Option Session
  | .Send i => if s.sending (.Sender i) = .Idle then some (s.acquire (.Sender i)) else none
  | .SendRaw i raw =>
    if s.sending (.Sender i) = .Idle then
      some { s with sending := update s.sending (.Sender i) (.Queueing raw false) }
    else none
  | .Submitted i call_id =>
    if s.sending (.Sender i) = .Idle then
      let (turn,request_response) := s.turn.output_submitted call_id
      let s := { s with turn }
      some (if request_response then s.acquire (.Sender i) else s)
    else none
  | .Serialized p result =>
    if s.sending p = .Serializing then
      match result with
      | some raw =>
        if raw = .null then some (s.through p true)
        else some { s with sending := update s.sending p (.Queueing raw true) }
      | none => some (s.through p true)
    else none
  | .Queued p =>
    match s.sending p with
    | .Queueing raw permit =>
      if s.queue.length < capacity then some ({ s with queue := s.queue ++ [raw] }.through p permit) else none
    | _ => none
  | .Receive =>
    match s.phase,s.queue with
    | .Selecting,_ :: rest => some { s with queue := rest,phase := .Writing }
    | _,_ => none
  | .Written => if s.phase = .Writing then some { s with phase := .Selecting } else none
  -- The `select!` is biased: a frame is read when the queue is empty.
  | .Frame events =>
    if s.phase = .Selecting ∧ s.queue = [] then some { s with phase := .Handling events } else none
  | .Handle =>
    match s.phase with
    | .Handling (event :: events) =>
      let (turn,request_response) := s.turn.handle_event from_str event
      let s := { s with turn,phase := .Handling events }
      some (if request_response then { s with phase := .Requesting events }.acquire .Connection else s)
    | _ => none
  | .Handled => if s.phase = .Handling [] then some { s with phase := .Selecting } else none

/-! ### One step -/

/-- What a step can do, and when. -/
inductive Taken (from_str : String → Option JsonValue) (capacity : Nat) (s : Session) : Move → Session → Prop
  | send {i : Nat} (idle : s.sending (.Sender i) = .Idle) : Taken from_str capacity s (.Send i) (s.acquire (.Sender i))
  | sendRaw {i : Nat} {raw : JsonValue} (idle : s.sending (.Sender i) = .Idle) :
    Taken from_str capacity s (.SendRaw i raw)
      { s with sending := update s.sending (.Sender i) (.Queueing raw false) }
  | followUp {i : Nat} {call_id : String} (idle : s.sending (.Sender i) = .Idle) :
    Taken from_str capacity s (.Submitted i call_id)
      (({ s with turn := (s.turn.output_submitted call_id).1 } : Session).acquire (.Sender i))
  | submitted {i : Nat} {call_id : String} :
    Taken from_str capacity s (.Submitted i call_id) { s with turn := (s.turn.output_submitted call_id).1 }
  | serialized {p : Party} {raw : JsonValue} (serializing : s.sending p = .Serializing) :
    Taken from_str capacity s (.Serialized p (some raw)) { s with sending := update s.sending p (.Queueing raw true) }
  | dropped {p : Party} {result : Option JsonValue} (serializing : s.sending p = .Serializing) :
    Taken from_str capacity s (.Serialized p result) (s.through p true)
  | queued {p : Party} {raw : JsonValue} {permit : Bool} (queueing : s.sending p = .Queueing raw permit)
      (room : s.queue.length < capacity) :
    Taken from_str capacity s (.Queued p) (({ s with queue := s.queue ++ [raw] } : Session).through p permit)
  | receive {raw : JsonValue} {rest : List JsonValue} (phase : s.phase = .Selecting) (queue : s.queue = raw :: rest) :
    Taken from_str capacity s .Receive { s with queue := rest,phase := .Writing }
  | written (phase : s.phase = .Writing) : Taken from_str capacity s .Written { s with phase := .Selecting }
  | frame {events : List ServerEvent} (phase : s.phase = .Selecting) (queue : s.queue = []) :
    Taken from_str capacity s (.Frame events) { s with phase := .Handling events }
  | request {event : ServerEvent} {events : List ServerEvent} (phase : s.phase = .Handling (event :: events))
      (due : (s.turn.handle_event from_str event).2 = true) :
    Taken from_str capacity s .Handle
      (({ s with turn := (s.turn.handle_event from_str event).1,phase := .Requesting events } : Session).acquire .Connection)
  | handle {event : ServerEvent} {events : List ServerEvent} (phase : s.phase = .Handling (event :: events))
      (settled : (s.turn.handle_event from_str event).2 = false) :
    Taken from_str capacity s .Handle
      { s with turn := (s.turn.handle_event from_str event).1,phase := .Handling events }
  | handled (phase : s.phase = .Handling []) : Taken from_str capacity s .Handled { s with phase := .Selecting }

theorem step_taken {from_str : String → Option JsonValue} {capacity : Nat} {s s' : Session} {move : Move}
    (taken : s.step from_str capacity move = some s') : Taken from_str capacity s move s' := by
  cases move with
  | Send =>
    simp only [Session.step] at taken
    split_ifs at taken with idle
    cases taken
    exact .send idle
  | SendRaw =>
    simp only [Session.step] at taken
    split_ifs at taken with idle
    cases taken
    exact .sendRaw idle
  | Submitted =>
    simp only [Session.step] at taken
    split_ifs at taken with idle due
    · cases taken
      exact .followUp idle
    · cases taken
      exact .submitted
  | Serialized p result =>
    simp only [Session.step] at taken
    split_ifs at taken with serializing
    cases result with
    | none =>
      cases taken
      exact .dropped serializing
    | some =>
      dsimp only at taken
      split_ifs at taken with null
      · cases taken
        exact .dropped serializing
      · cases taken
        exact .serialized serializing
  | Queued =>
    simp only [Session.step] at taken
    split at taken
    · rename_i raw permit queueing
      split_ifs at taken with room
      cases taken
      exact .queued queueing room
    · cases taken
  | Receive =>
    simp only [Session.step] at taken
    split at taken
    · rename_i phase queue
      cases taken
      exact .receive phase queue
    · cases taken
  | Written =>
    simp only [Session.step] at taken
    split_ifs at taken with phase
    cases taken
    exact .written phase
  | Frame =>
    simp only [Session.step] at taken
    split_ifs at taken with free
    cases taken
    exact .frame free.1 free.2
  | Handle =>
    simp only [Session.step] at taken
    split at taken
    · rename_i event events phase
      split_ifs at taken with due
      · cases taken
        exact .request phase due
      · cases taken
        exact .handle phase (by simpa using due)
    · cases taken
  | Handled =>
    simp only [Session.step] at taken
    split_ifs at taken with phase
    cases taken
    exact .handled phase

section
variable {from_str : String → Option JsonValue} {capacity : Nat} {s s' : Session} {p : Party}

def WaitsForPlace (capacity : Nat) (s : Session) (p : Party) : Prop :=
  (∃ raw permit, s.sending p = .Queueing raw permit) ∧ capacity ≤ s.queue.length

/-- The connection task waits for a place that only it can make, or for a party that does. -/
def Stuck (capacity : Nat) (s : Session) : Prop := WaitsForPlace capacity s .Connection ∨
  s.sending .Connection = .Acquiring ∧ ∃ p, s.holder = some p ∧ WaitsForPlace capacity s p

/-- A follow-up is requested by the connection task with a place left in the queue, and until it is through the others
leave one. -/
def LeavesPlace (from_str : String → Option JsonValue) (capacity : Nat) (s : Session) : Move → Prop
  | .Handle => ∀ event events, s.phase = .Handling (event :: events) →
      (s.turn.handle_event from_str event).2 = true → s.queue.length < capacity
  | .Queued (.Sender _) => ∀ events, s.phase = .Requesting events → s.queue.length + 1 < capacity
  | _ => True

structure Permits (s : Session) : Prop where
  permit : ∀ p, s.holder = some p ↔ s.sending p = .Serializing ∨ ∃ raw, s.sending p = .Queueing raw true
  line : ∀ p, p ∈ s.waiters ↔ s.sending p = .Acquiring
  once : s.waiters.Nodup
  held : s.holder = none → s.waiters = []

/-- What the connection task sends are its follow-ups, with the permit. -/
structure Phased (s : Session) : Prop where
  requesting : s.sending .Connection ≠ .Idle ↔ ∃ events, s.phase = .Requesting events
  permitted : ∀ raw, s.sending .Connection ≠ .Queueing raw false

theorem Permits.acquire (permits : Permits s) (idle : s.sending p = .Idle) : Permits (s.acquire p) := by
  obtain ⟨permit,line,once,_⟩ := permits
  have away : s.holder ≠ some p := by
    intro holds
    rcases (permit p).mp holds with same | ⟨_,same⟩ <;> rw [idle] at same <;> cases same
  have absent : p ∉ s.waiters := by
    intro mem
    have same := (line p).mp mem
    rw [idle] at same
    cases same
  unfold Session.acquire
  cases free : s.holder with
  | none =>
    refine ⟨fun q => ?_,fun q => ?_,once,fun none_ => by cases none_⟩
    · by_cases same : q = p
      · subst same
        simp
      · have other := permit q
        rw [free] at other
        simpa [update_of_ne same,Ne.symm same] using other
    · by_cases same : q = p
      · subst same
        simp [absent]
      · simpa [update_of_ne same] using line q
  | some =>
    refine ⟨fun q => ?_,fun q => ?_,?_,fun none_ => by cases none_⟩
    · by_cases same : q = p
      · subst same
        rw [free] at away
        simpa using away
      · have other := permit q
        rw [free] at other
        simpa [update_of_ne same] using other
    · by_cases same : q = p
      · subst same
        simp
      · simpa [update_of_ne same,same] using line q
    · exact List.nodup_append.mpr ⟨once,by simp,fun a before b new same => absent (List.mem_singleton.mp new ▸ same ▸ before)⟩

theorem Permits.release (permits : Permits s) (holds : s.holder = some p) :
    Permits ({ s with sending := update s.sending p .Idle } : Session).release := by
  obtain ⟨permit,line,once,_⟩ := permits
  have alone : ∀ q, q ≠ p → s.sending q ≠ .Serializing ∧ ∀ raw, s.sending q ≠ .Queueing raw true := by
    intro q other
    have notHolder : ¬ s.holder = some q := by
      rw [holds]
      exact fun same => other (Option.some.inj same).symm
    rw [permit q,not_or,not_exists] at notHolder
    exact notHolder
  have absent : p ∉ s.waiters := by
    intro mem
    have waits := (line p).mp mem
    rcases (permit p).mp holds with same | ⟨_,same⟩ <;> rw [waits] at same <;> cases same
  unfold Session.release
  cases waiting : s.waiters with
  | nil =>
    rw [waiting] at line
    refine ⟨fun q => ?_,fun q => ?_,nodup_nil,fun _ => rfl⟩
    · by_cases same : q = p
      · subst same
        simp
      · simpa [update_of_ne same] using alone q same
    · by_cases same : q = p
      · subst same
        simp
      · simpa [update_of_ne same] using line q
  | cons next =>
    rw [waiting] at line once absent
    rw [nodup_cons] at once
    rw [mem_cons,not_or] at absent
    refine ⟨fun q => ?_,fun q => ?_,once.2,fun none_ => by cases none_⟩
    · by_cases first : q = next
      · subst first
        simp
      · by_cases same : q = p
        · subst same
          simp [update_of_ne first,Ne.symm first]
        · simpa [update_of_ne first,update_of_ne same,Ne.symm first] using alone q same
    · by_cases first : q = next
      · subst first
        simp [once.1]
      · by_cases same : q = p
        · subst same
          simp [update_of_ne first,absent.2]
        · simpa [update_of_ne first,update_of_ne same,first] using line q

theorem Permits.congr (permits : Permits s) (holder : s'.holder = s.holder) (waiters : s'.waiters = s.waiters)
    (sending : s'.sending = s.sending) : Permits s' := by
  refine ⟨?_,?_,?_,?_⟩
  · rw [holder,sending]
    exact permits.permit
  · rw [waiters,sending]
    exact permits.line
  · rw [waiters]
    exact permits.once
  · rw [holder,waiters]
    exact permits.held

theorem Permits.update (permits : Permits s) (value : Sending)
    (permit : (value = .Serializing ∨ ∃ raw, value = .Queueing raw true) ↔
      s.sending p = .Serializing ∨ ∃ raw, s.sending p = .Queueing raw true)
    (line : value = .Acquiring ↔ s.sending p = .Acquiring) :
    Permits { s with sending := update s.sending p value } := by
  refine ⟨fun q => ?_,fun q => ?_,permits.once,permits.held⟩
  · by_cases same : q = p
    · subst same
      simp only [update_self,permit]
      exact permits.permit q
    · simp only [update_of_ne same]
      exact permits.permit q
  · by_cases same : q = p
    · subst same
      simp only [update_self,line]
      exact permits.line q
    · simp only [update_of_ne same]
      exact permits.line q

theorem release_frame (s : Session) : s.release.queue = s.queue ∧ s.release.phase = s.phase ∧ s.release.turn = s.turn := by
  unfold Session.release
  cases s.waiters <;> exact ⟨rfl,rfl,rfl⟩

theorem release_sending (s : Session) (q : Party) :
    s.release.sending q = s.sending q ∨ q ∈ s.waiters ∧ s.release.sending q = .Serializing := by
  unfold Session.release
  cases waiting : s.waiters with
  | nil => exact .inl rfl
  | cons next =>
    by_cases first : q = next
    · subst first
      exact .inr ⟨mem_cons_self,update_self ..⟩
    · exact .inl (update_of_ne first ..)

theorem acquire_frame (s : Session) (p : Party) : (s.acquire p).queue = s.queue ∧ (s.acquire p).phase = s.phase := by
  unfold Session.acquire
  cases s.holder <;> exact ⟨rfl,rfl⟩

theorem acquire_sending (s : Session) (p q : Party) : (q ≠ p → (s.acquire p).sending q = s.sending q) ∧
    ((s.acquire p).sending p = .Serializing ∨ (s.acquire p).sending p = .Acquiring) := by
  unfold Session.acquire
  cases s.holder with
  | none => exact ⟨fun other => update_of_ne other ..,.inl (update_self ..)⟩
  | some => exact ⟨fun other => update_of_ne other ..,.inr (update_self ..)⟩

theorem Permits.through (permits : Permits s) {permit : Bool}
    (had : if permit then s.holder = some p else s.sending p = .Idle ∨ ∃ raw, s.sending p = .Queueing raw false) :
    Permits (s.through p permit) := by
  have inner : Permits (s.settle p permit) := by
    unfold Session.settle
    cases permit with
    | true => exact permits.release had
    | false =>
      refine permits.update .Idle ?_ ?_ <;> rcases had with same | ⟨_,same⟩ <;> simp [same]
  unfold Session.through
  split
  · exact inner.congr rfl rfl rfl
  · exact inner

theorem acquire_phased {events : List ServerEvent} (phase : s.phase = .Requesting events) : Phased (s.acquire .Connection) := by
  have busy := (acquire_sending s .Connection .Connection).2
  refine ⟨?_,?_⟩
  · rw [(acquire_frame s .Connection).2,phase]
    refine iff_of_true ?_ ⟨events,rfl⟩
    rcases busy with same | same <;> rw [same] <;> simp
  · intro raw
    rcases busy with same | same <;> rw [same] <;> simp

theorem Phased.idle (phased : Phased s) (other : ∀ events, s.phase ≠ .Requesting events) : s.sending .Connection = .Idle := by
  by_contra busy
  obtain ⟨events,same⟩ := phased.requesting.mp busy
  exact other events same

theorem Permits.taken (permits : Permits s) (phased : Phased s) {move : Move}
    (taken : Taken from_str capacity s move s') : Permits s' := by
  cases taken with
  | send idle => exact permits.acquire idle
  | sendRaw idle => refine permits.update _ ?_ ?_ <;> simp [idle]
  | @followUp i call_id idle =>
    have same : Permits { s with turn := (s.turn.output_submitted call_id).1 } := permits.congr rfl rfl rfl
    exact same.acquire idle
  | serialized serializing => refine permits.update _ ?_ ?_ <;> simp [serializing]
  | @dropped p result serializing => exact permits.through ((permits.permit p).mpr (.inl serializing))
  | @queued p raw permit queueing room =>
    have same : Permits { s with queue := s.queue ++ [raw] } := permits.congr rfl rfl rfl
    refine same.through ?_
    cases permit with
    | true => exact (permits.permit p).mpr (.inr ⟨raw,queueing⟩)
    | false => exact .inr ⟨raw,queueing⟩
  | @request event events phase due =>
    have same : Permits { s with turn := (s.turn.handle_event from_str event).1,phase := .Requesting events } :=
      permits.congr rfl rfl rfl
    exact same.acquire (phased.idle fun events same => by rw [phase] at same; cases same)
  | _ => exact permits.congr rfl rfl rfl

theorem Phased.through (phased : Phased s) (permits : Permits s) {permit : Bool} (busy : s.sending p ≠ .Idle)
    (had : permit = true → s.holder = some p) : Phased (s.through p permit) := by
  have phase : (s.settle p permit).phase = s.phase := by
    unfold Session.settle
    split_ifs
    · exact (release_frame _).2.1
    · rfl
  have sending : (s.settle p permit).sending .Connection = update s.sending p .Idle .Connection ∨
      permit = true ∧ .Connection ∈ s.waiters ∧ (s.settle p permit).sending .Connection = .Serializing := by
    unfold Session.settle
    split_ifs with handed
    · rcases release_sending ({ s with sending := update s.sending p .Idle } : Session) .Connection with same | next
      · exact .inl same
      · exact .inr ⟨handed,next⟩
    · exact .inl rfl
  cases p with
  | Connection =>
    obtain ⟨events,requesting⟩ := phased.requesting.mp busy
    have idle : (s.settle .Connection permit).sending .Connection = .Idle := by
      rcases sending with same | ⟨handed,waits,-⟩
      · rw [same,update_self]
      · rcases (permits.permit _).mp (had handed) with same | ⟨raw,same⟩ <;>
          rw [(permits.line _).mp waits] at same <;> cases same
    have whole : s.through .Connection permit = { s.settle .Connection permit with phase := .Handling events } := by
      unfold Session.through
      simp only [requesting]
    rw [whole]
    exact ⟨by simp [idle],by simp [idle]⟩
  | Sender i =>
    have kept : (s.settle (.Sender i) permit).sending .Connection = s.sending .Connection ∨
        s.sending .Connection = .Acquiring ∧ (s.settle (.Sender i) permit).sending .Connection = .Serializing := by
      rcases sending with same | ⟨-,waits,same⟩
      · rw [update_of_ne (by simp)] at same
        exact .inl same
      · exact .inr ⟨(permits.line _).mp waits,same⟩
    show Phased (s.settle (.Sender i) permit)
    refine ⟨?_,?_⟩
    · rw [phase,← phased.requesting]
      rcases kept with same | ⟨was,now⟩
      · rw [same]
      · simp [was,now]
    · intro raw
      rcases kept with same | ⟨-,now⟩
      · rw [same]
        exact phased.permitted raw
      · simp [now]

theorem Phased.taken (phased : Phased s) (permits : Permits s) {move : Move}
    (taken : Taken from_str capacity s move s') : Phased s' := by
  obtain ⟨requesting,permitted⟩ := phased
  have away : ∀ (s₁ : Session) (i : Nat), s₁.sending = s.sending → s₁.phase = s.phase → Phased (s₁.acquire (.Sender i)) := by
    intro s₁ i sending phase
    have other := (acquire_sending s₁ (.Sender i) .Connection).1 (by simp)
    have frame := (acquire_frame s₁ (.Sender i)).2
    refine ⟨?_,?_⟩
    · rw [other,frame,sending,phase]
      exact requesting
    · rw [other,sending]
      exact permitted
  cases taken with
  | send => exact away s _ rfl rfl
  | sendRaw =>
    refine ⟨?_,?_⟩
    · simpa using requesting
    · simpa using permitted
  | followUp => exact away _ _ rfl rfl
  | submitted => exact ⟨requesting,permitted⟩
  | @serialized p raw serializing =>
    cases p with
    | Connection =>
      have before := requesting.mp (by simp [serializing])
      exact ⟨by simpa using before,by simp⟩
    | Sender => exact ⟨by simpa using requesting,by simpa using permitted⟩
  | @dropped p result serializing =>
    exact Phased.through ⟨requesting,permitted⟩ permits (by simp [serializing])
      fun _ => (permits.permit p).mpr (.inl serializing)
  | @queued p raw permit queueing room =>
    have same : Permits { s with queue := s.queue ++ [raw] } := permits.congr rfl rfl rfl
    have phased : Phased { s with queue := s.queue ++ [raw] } := ⟨requesting,permitted⟩
    refine phased.through same (by simp [queueing]) fun handed => ?_
    subst handed
    exact (permits.permit p).mpr (.inr ⟨raw,queueing⟩)
  | request => exact acquire_phased rfl
  | receive phase => exact ⟨by simpa [phase] using requesting,permitted⟩
  | written phase => exact ⟨by simpa [phase] using requesting,permitted⟩
  | frame phase => exact ⟨by simpa [phase] using requesting,permitted⟩
  | handle phase => exact ⟨by simpa [phase] using requesting,permitted⟩
  | handled phase => exact ⟨by simpa [phase] using requesting,permitted⟩

theorem through_frame (s : Session) (p : Party) (permit : Bool) : (s.through p permit).queue = s.queue ∧
    ((s.through p permit).phase = s.phase ∧ (p = .Connection → ∀ events, s.phase ≠ .Requesting events) ∨
      p = .Connection ∧ ∃ events, (s.through p permit).phase = .Handling events) := by
  have kept : (s.settle p permit).queue = s.queue ∧ (s.settle p permit).phase = s.phase := by
    unfold Session.settle
    split_ifs
    · exact ⟨(release_frame _).1,(release_frame _).2.1⟩
    · exact ⟨rfl,rfl⟩
  unfold Session.through
  split
  · exact ⟨kept.1,.inr ⟨rfl,_,rfl⟩⟩
  · rename_i other
    exact ⟨kept.1,.inl ⟨kept.2,fun same events requesting => other events same requesting⟩⟩

/-! ### When it does not happen -/

/-- While the connection task requests a follow-up the queue has a place. -/
def Roomy (capacity : Nat) (s : Session) : Prop := ∀ events, s.phase = .Requesting events → s.queue.length < capacity

theorem Roomy.taken (roomy : Roomy capacity s) {move : Move} (leaves : LeavesPlace from_str capacity s move)
    (taken : Taken from_str capacity s move s') : Roomy capacity s' := by
  have acquired (s₁ : Session) (p : Party) (kept : Roomy capacity s₁) : Roomy capacity (s₁.acquire p) := by
    obtain ⟨queue,phase⟩ := acquire_frame s₁ p
    intro events requesting
    rw [phase] at requesting
    rw [queue]
    exact kept events requesting
  cases taken with
  | send => exact acquired s _ roomy
  | followUp => exact acquired _ _ roomy
  | @dropped p result serializing =>
    obtain ⟨queue,phase⟩ := through_frame s p true
    intro events requesting
    rw [queue]
    rcases phase with ⟨same,-⟩ | ⟨-,later,same⟩
    · exact roomy events (same ▸ requesting)
    · rw [requesting] at same
      cases same
  | @queued p raw permit queueing room =>
    obtain ⟨queue,phase⟩ := through_frame ({ s with queue := s.queue ++ [raw] } : Session) p permit
    intro events requesting
    rw [queue,length_append,length_singleton]
    rcases phase with ⟨same,other⟩ | ⟨-,_,same⟩
    · rw [same] at requesting
      cases p with
      | Connection => exact absurd requesting (other rfl events)
      | Sender => exact leaves events requesting
    · rw [requesting] at same
      cases same
  | @request event events phase due => exact acquired _ _ fun _ _ => leaves event events phase due
  | sendRaw => exact roomy
  | submitted => exact roomy
  | serialized => exact roomy
  | _ => intro events requesting; cases requesting

theorem Roomy.not_stuck (roomy : Roomy capacity s) (phased : Phased s) : ¬ Stuck capacity s := by
  have away : capacity ≤ s.queue.length → s.sending .Connection = .Idle := by
    intro full
    refine phased.idle fun events requesting => ?_
    have := roomy events requesting
    omega
  rintro (⟨⟨_,_,queueing⟩,full⟩ | ⟨acquiring,p,-,-,full⟩)
  · rw [away full] at queueing
    cases queueing
  · rw [away full] at acquiring
    cases acquiring

theorem Stuck.taken (stuck : Stuck capacity s) (permits : Permits s) (phased : Phased s) {move : Move}
    (taken : Taken from_str capacity s move s') : Stuck capacity s' := by
  have busy : s.sending .Connection ≠ .Idle := by
    rcases stuck with ⟨⟨raw,permit,queueing⟩,-⟩ | ⟨acquiring,-⟩
    · simp [queueing]
    · simp [acquiring]
  obtain ⟨_,requesting⟩ := phased.requesting.mp busy
  have full : capacity ≤ s.queue.length := by
    rcases stuck with ⟨-,full⟩ | ⟨-,p,-,-,full⟩ <;> exact full
  -- The holder of the permit is queueing, so that nothing can be serialized.
  obtain ⟨p,holds,raw,queueing⟩ : ∃ p, s.holder = some p ∧ ∃ raw, s.sending p = .Queueing raw true := by
    rcases stuck with ⟨⟨raw,permit,queueing⟩,-⟩ | ⟨-,p,holds,⟨raw,permit,queueing⟩,-⟩
    · cases permit with
      | true => exact ⟨.Connection,(permits.permit _).mpr (.inr ⟨raw,queueing⟩),raw,queueing⟩
      | false => exact absurd queueing (phased.permitted raw)
    · refine ⟨p,holds,?_⟩
      rcases (permits.permit p).mp holds with serializing | held
      · rw [serializing] at queueing
        cases queueing
      · exact held
  have unserialized (q : Party) : s.sending q ≠ .Serializing := by
    intro serializing
    have same := (permits.permit q).mpr (.inl serializing)
    rw [holds] at same
    cases same
    rw [queueing] at serializing
    cases serializing
  have kept : ∀ s₁ : Session, s₁.holder = s.holder → s₁.queue = s.queue →
      (∀ q, s.sending q ≠ .Idle → s₁.sending q = s.sending q) → Stuck capacity s₁ := by
    intro s₁ holder queue sending
    have waits : WaitsForPlace capacity s₁ p := ⟨⟨raw,true,by rw [sending p (by simp [queueing]),queueing]⟩,by rwa [queue]⟩
    rcases stuck with ⟨⟨raw',permit',queueing'⟩,-⟩ | ⟨acquiring,-⟩
    · exact .inl ⟨⟨raw',permit',by rw [sending .Connection busy,queueing']⟩,by rwa [queue]⟩
    · exact .inr ⟨by rw [sending .Connection busy,acquiring],p,by rw [holder,holds],waits⟩
  have acquired : ∀ (s₁ : Session) (i : Nat), s₁.holder = s.holder → s₁.queue = s.queue → s₁.sending = s.sending →
      s.sending (.Sender i) = .Idle → Stuck capacity (s₁.acquire (.Sender i)) := by
    intro s₁ i holder queue sending idle
    refine kept _ ?_ ((acquire_frame s₁ _).1.trans queue) fun q active => ?_
    · unfold Session.acquire
      rw [holder,holds]
    · rw [(acquire_sending s₁ (.Sender i) q).1 fun same => active (same ▸ idle),sending]
  cases taken with
  | send idle => exact acquired s _ rfl rfl rfl idle
  | followUp idle => exact acquired _ _ rfl rfl rfl idle
  | sendRaw idle =>
    refine kept _ rfl rfl fun q active => update_of_ne ?_ ..
    rintro rfl
    exact active idle
  | submitted => exact kept _ rfl rfl fun _ _ => rfl
  | serialized serializing => exact absurd serializing (unserialized _)
  | dropped serializing => exact absurd serializing (unserialized _)
  | queued _ room => exact absurd room (Nat.not_lt.mpr full)
  | receive phase => rw [requesting] at phase; cases phase
  | written phase => rw [requesting] at phase; cases phase
  | frame phase => rw [requesting] at phase; cases phase
  | request phase => rw [requesting] at phase; cases phase
  | handle phase => rw [requesting] at phase; cases phase
  | handled phase => rw [requesting] at phase; cases phase

theorem stuck_of_full (permits : Permits s) (phased : Phased s) {events : List ServerEvent}
    (requesting : s.phase = .Requesting events) (full : capacity ≤ s.queue.length) :
    ∃ moves s', run (Session.step from_str capacity) s moves = some s' ∧ Stuck capacity s' := by
  have serialize (p : Party) (serializing : s.sending p = .Serializing) :
      run (Session.step from_str capacity) s [.Serialized p (some (.bool true))] =
        some { s with sending := update s.sending p (.Queueing (.bool true) true) } := by
    rw [run,Session.step,if_pos serializing]
    rfl
  cases standing : s.sending .Connection with
  | Idle => exact absurd standing (phased.requesting.mpr ⟨events,requesting⟩)
  | Serializing =>
    exact ⟨_,_,serialize .Connection standing,.inl ⟨⟨.bool true,true,by simp⟩,full⟩⟩
  | Queueing raw permit => exact ⟨[],s,rfl,.inl ⟨⟨raw,permit,standing⟩,full⟩⟩
  | Acquiring =>
    have waits : s.waiters ≠ [] := fun none_ => by
      have member := (permits.line .Connection).mpr standing
      rw [none_] at member
      cases member
    cases holds : s.holder with
    | none => exact absurd (permits.held holds) waits
    | some p =>
      rcases (permits.permit p).mp holds with serializing | ⟨raw,queueing⟩
      · have other : Party.Connection ≠ p := by
          rintro rfl
          rw [standing] at serializing
          cases serializing
        refine ⟨_,_,serialize p serializing,.inr ⟨?_,p,holds,⟨.bool true,true,?_⟩,full⟩⟩
        · exact (update_of_ne other ..).trans standing
        · exact update_self ..
      · exact ⟨[],s,rfl,.inr ⟨standing,p,holds,⟨raw,true,queueing⟩,full⟩⟩

theorem orderly_run {moves : List Move} (ran : run (Session.step from_str capacity) .start moves = some s) :
    Permits s ∧ Phased s := by
  refine invariant (P := fun s => Permits s ∧ Phased s) ?_ ⟨?_,?_⟩ ran
  · rintro s _ _ ⟨permits,phased⟩ stepped
    have taken := step_taken stepped
    exact ⟨permits.taken phased taken,phased.taken permits taken⟩
  · constructor <;> simp [Session.start]
  · constructor <;> simp [Session.start]

end

/-- As long as follow-ups are requested with a place left in the queue, the connection task never waits on itself, and
does nothing but return to a full queue. A step that takes the last place meanwhile may be followed by steps after which
it waits on itself for good. -/
theorem connection_never_stuck (from_str : String → Option JsonValue) (capacity : Nat) :
    (∀ moves s, run (Session.step from_str capacity) .start moves = some s →
      Runs.Along (Session.step from_str capacity) (LeavesPlace from_str capacity) .start moves →
      ¬ Stuck capacity s ∧ (capacity ≤ s.queue.length → s.sending .Connection = .Idle)) ∧
    ∀ moves s move s', run (Session.step from_str capacity) .start moves = some s →
      s.step from_str capacity move = some s' → ¬ LeavesPlace from_str capacity s move →
      ∃ more later, run (Session.step from_str capacity) s' more = some later ∧
        ∀ rest last, run (Session.step from_str capacity) later rest = some last → Stuck capacity last := by
  constructor
  · intro moves s ran along
    have phased := (orderly_run ran).2
    have roomy : Roomy capacity s := by
      refine invariant_along (P := Roomy capacity) ?_ ?_ along ran
      · intro s move s' roomy leaves stepped
        exact roomy.taken leaves (step_taken stepped)
      · intro events requesting
        cases requesting
    refine ⟨roomy.not_stuck phased,fun full => phased.idle fun events requesting => ?_⟩
    exact absurd (roomy events requesting) (Nat.not_lt.mpr full)
  · intro moves s move s' ran stepped takes
    obtain ⟨permits,phased⟩ := orderly_run ran
    have taken := step_taken stepped
    have permits' := permits.taken phased taken
    have phased' := phased.taken permits taken
    obtain ⟨events,requesting,full⟩ : ∃ events, s'.phase = .Requesting events ∧ capacity ≤ s'.queue.length := by
      cases taken with
      | @request event events phase due =>
        refine ⟨events,(acquire_frame _ _).2,?_⟩
        rw [(acquire_frame _ _).1]
        by_contra short
        refine takes fun event' events' phase' _ => ?_
        exact Nat.not_le.mp short
      | @handle event events phase settled =>
        refine absurd (fun event' events' phase' due => ?_) takes
        rw [phase] at phase'
        cases phase'
        rw [settled] at due
        cases due
      | @queued p raw permit queueing room =>
        cases p with
        | Connection => exact absurd trivial takes
        | Sender i =>
          simp only [LeavesPlace,not_forall] at takes
          obtain ⟨events,requesting,long⟩ := takes
          obtain ⟨queue,phase⟩ := through_frame ({ s with queue := s.queue ++ [raw] } : Session) (.Sender i) permit
          refine ⟨events,?_,?_⟩
          · rcases phase with ⟨same,-⟩ | ⟨other,-⟩
            · exact same.trans requesting
            · cases other
          · rw [queue,length_append,length_singleton]
            exact Nat.not_lt.mp long
      | _ => exact absurd trivial takes
    obtain ⟨more,later,ran',stuck⟩ := @stuck_of_full from_str _ _ permits' phased' _ requesting full
    refine ⟨more,later,ran',fun rest last ran'' => ?_⟩
    have fine : Permits later ∧ Phased later := by
      refine invariant (P := fun s => Permits s ∧ Phased s) ?_ ⟨permits',phased'⟩ ran'
      rintro s move s' ⟨permits,phased⟩ stepped
      have taken := step_taken stepped
      exact ⟨permits.taken phased taken,phased.taken permits taken⟩
    refine (invariant (P := fun s => (Permits s ∧ Phased s) ∧ Stuck capacity s) ?_ ⟨fine,stuck⟩ ran'').2
    rintro s move s' ⟨⟨permits,phased⟩,stuck⟩ stepped
    have taken := step_taken stepped
    exact ⟨⟨permits.taken phased taken,phased.taken permits taken⟩,stuck.taken permits phased taken⟩

/-- A response with one call, whose output is queued before the response is done, and `n` messages. -/
def busy (n : Nat) : List Move :=
  [.Frame [.FunctionCallArgumentsDone "a" "weather" "\x7b\x7d",.ResponseDone],.Handle,.Submitted 0 "a"] ++
    (List.replicate n [.SendRaw 0 (.bool true),.Queued (.Sender 0)]).flatten

/-- The run of `busy`, as far as the next steps depend on it. -/
theorem busy_full : ∃ s, run (Session.step emptyObject OUTBOUND_BUFFER) .start (busy OUTBOUND_BUFFER) = some s ∧
    s.phase = .Handling [.ResponseDone] ∧ s.turn = ⟨["a"],["a"],false,[("a","weather")]⟩ ∧ s.holder = none ∧
    s.queue.length = OUTBOUND_BUFFER := by
  have told : (run (Session.step emptyObject OUTBOUND_BUFFER) .start (busy OUTBOUND_BUFFER)).map
      (fun s => (s.phase,s.turn,s.holder,s.queue.length)) =
      some (.Handling [.ResponseDone],⟨["a"],["a"],false,[("a","weather")]⟩,none,OUTBOUND_BUFFER) := by
    decide
  obtain ⟨s,ran,same⟩ := Option.map_eq_some_iff.mp told
  simp only [Prod.mk.injEq] at same
  exact ⟨s,ran,same⟩

/-- The connection task waits for a place in the queue that only it empties. -/
theorem connection_stuck : ∃ s, run (Session.step emptyObject OUTBOUND_BUFFER) .start
    (busy OUTBOUND_BUFFER ++ [.Handle,.Serialized .Connection (some (.bool false))]) = some s ∧
      WaitsForPlace OUTBOUND_BUFFER s .Connection ∧ s.queue.length = OUTBOUND_BUFFER := by
  obtain ⟨s,ran,phase,turn,free,full⟩ := busy_full
  have due : s.turn.handle_event emptyObject .ResponseDone = (⟨[],[],false,[("a","weather")]⟩,true) := by
    rw [turn]
    decide
  refine ⟨{ s with
    turn := ⟨[],[],false,[("a","weather")]⟩
    phase := .Requesting []
    holder := some .Connection
    sending := update (update s.sending .Connection .Serializing) .Connection
      (.Queueing (.bool false) true) },Runs.run_append.mpr ⟨s,ran,?_⟩,⟨⟨.bool false,true,?_⟩,Nat.le_of_eq full.symm⟩,full⟩
  · simp [run,Session.step,phase,due,Session.acquire,free]
  · simp

theorem connection_never_stuck_busy :
    (¬ Stuck OUTBOUND_BUFFER .start ∧ (OUTBOUND_BUFFER ≤ Session.start.queue.length → Session.start.sending .Connection = .Idle)) ∧
    ∀ s s', run (Session.step emptyObject OUTBOUND_BUFFER) .start (busy OUTBOUND_BUFFER) = some s →
      s.step emptyObject OUTBOUND_BUFFER .Handle = some s' →
      ∃ more later, run (Session.step emptyObject OUTBOUND_BUFFER) s' more = some later ∧
        ∀ rest last, run (Session.step emptyObject OUTBOUND_BUFFER) later rest = some last →
          Stuck OUTBOUND_BUFFER last := by
  refine ⟨(connection_never_stuck emptyObject OUTBOUND_BUFFER).1 [] .start rfl trivial,?_⟩
  intro s s' ran stepped
  refine (connection_never_stuck emptyObject OUTBOUND_BUFFER).2 _ s .Handle s' ran stepped fun leaves => ?_
  obtain ⟨s₁,ran₁,phase,turn,-,full⟩ := busy_full
  rw [ran] at ran₁
  cases ran₁
  have short := leaves .ResponseDone [] phase (by rw [turn]; decide)
  omega

/-! ### The order of the messages -/

def Sending.message : Sending → List JsonValue
  | .Queueing raw _ => [raw]
  | _ => []

/-- The message that is queued under the permit. -/
def Sending.permitted : Sending → List JsonValue
  | .Queueing raw true => [raw]
  | _ => []

namespace Session

def queued (s : Session) : Move → List JsonValue
  | .Queued p => (s.sending p).message
  | _ => []

def received (s : Session) : Move → List JsonValue
  | .Receive => s.queue.take 1
  | _ => []

/-- What the model serialized, other than null. -/
def serialized (_ : Session) : Move → List JsonValue
  | .Serialized _ (some raw) => if raw = .null then [] else [raw]
  | _ => []

def permitted (s : Session) : Move → List JsonValue
  | .Queued p => (s.sending p).permitted
  | _ => []

/-- The message of the party that holds the permit. -/
def held (s : Session) : List JsonValue := s.holder.elim [] fun p => (s.sending p).permitted

end Session

section
variable {from_str : String → Option JsonValue} {capacity : Nat} {s s' : Session} {p : Party} {move : Move}

theorem held_update {value : Sending} (same : value.permitted = (s.sending p).permitted) :
    ({ s with sending := update s.sending p value } : Session).held = s.held := by
  unfold Session.held
  cases s.holder with
  | none => rfl
  | some q =>
    by_cases here : q = p
    · subst here
      simp [same]
    · simp [update_of_ne here]

theorem acquire_held (idle : s.sending p = .Idle) : (s.acquire p).held = s.held := by
  unfold Session.acquire
  cases free : s.holder with
  | none => simp [Session.held,free,Sending.permitted]
  | some =>
    have same : Sending.Acquiring.permitted = (s.sending p).permitted := by rw [idle]; rfl
    rw [← held_update same]
    simp [Session.held,free]

/-- The next holder has nothing serialized yet. -/
theorem through_held (s : Session) (p : Party) : (s.through p true).held = [] := by
  have released (s : Session) : s.release.held = [] := by
    unfold Session.release
    cases s.waiters <;> simp [Session.held,Sending.permitted]
  unfold Session.through
  split <;> exact released _

theorem through_held_unpermitted (free : (s.sending p).permitted = []) : (s.through p false).held = s.held := by
  have settled : ({ s with sending := update s.sending p .Idle } : Session).held = s.held := held_update free.symm
  unfold Session.through
  split <;> exact settled

theorem serialized_conserved {result : Option JsonValue} (permits : Permits s)
    (stepped : s.step from_str capacity (.Serialized p result) = some s') :
    s.held ++ s.serialized (.Serialized p result) = s'.held := by
  simp only [Session.step] at stepped
  split_ifs at stepped with serializing
  have holds := (permits.permit p).mpr (.inl serializing)
  have nothing : s.held = [] := by simp [Session.held,holds,serializing,Sending.permitted]
  rw [nothing]
  cases result with
  | none =>
    cases stepped
    exact (through_held s p).symm
  | some raw =>
    dsimp only at stepped
    split_ifs at stepped with null <;> cases stepped
    · simp [null,through_held,Session.serialized]
    · simp [null,Session.serialized,Session.held,holds,Sending.permitted]

theorem held_conserved (permits : Permits s) (phased : Phased s) (stepped : s.step from_str capacity move = some s') :
    s.held ++ s.serialized move = s.permitted move ++ s'.held := by
  cases step_taken stepped with
  | serialized | dropped => exact serialized_conserved permits stepped
  | @queued p raw permit queueing room =>
    cases permit with
    | true =>
      have holds := (permits.permit p).mpr (.inr ⟨raw,queueing⟩)
      rw [through_held]
      simp [Session.held,holds,Session.serialized,Session.permitted]
    | false =>
      have free : (s.sending p).permitted = [] := by rw [queueing]; rfl
      rw [through_held_unpermitted]
      · simp [Session.held,Session.serialized,Session.permitted,free]
      · exact free
  | send idle | followUp idle =>
    rw [acquire_held]
    · exact append_nil _
    · exact idle
  | sendRaw idle =>
    rw [held_update]
    · exact append_nil _
    · rw [idle]
      rfl
  | request phase =>
    rw [acquire_held]
    · exact append_nil _
    · exact phased.idle fun events same => by rw [phase] at same; cases same
  | _ => exact append_nil _

theorem queue_conserved (stepped : s.step from_str capacity move = some s') :
    s.queue ++ s.queued move = s.received move ++ s'.queue := by
  cases step_taken stepped with
  | send => simp [(acquire_frame _ _).1,Session.queued,Session.received]
  | followUp => simp [(acquire_frame _ _).1,Session.queued,Session.received]
  | request => simp [(acquire_frame _ _).1,Session.queued,Session.received]
  | dropped => simp [(through_frame _ _ _).1,Session.queued,Session.received]
  | queued queueing => simp [(through_frame _ _ _).1,queueing,Sending.message,Session.queued,Session.received]
  | receive _ queue => simp [queue,Session.queued,Session.received]
  | _ => simp [Session.queued,Session.received]

theorem queue_bounded (stepped : s.step from_str capacity move = some s') (bounded : s.queue.length ≤ capacity) :
    s'.queue.length ≤ capacity := by
  cases step_taken stepped with
  | send => rwa [(acquire_frame _ _).1]
  | followUp => rwa [(acquire_frame _ _).1]
  | request => rwa [(acquire_frame _ _).1]
  | dropped => rwa [(through_frame _ _ _).1]
  | queued _ room =>
    rw [(through_frame _ _ _).1,length_append]
    exact room
  | receive _ queue =>
    rw [queue] at bounded
    exact Nat.le_of_succ_le bounded
  | _ => exact bounded

/-- The connection task receives what was queued, in order, and what was serialized is queued in the order of its
serialization: nothing is lost but the message of the party that holds the permit, which is yet to come. -/
theorem serialized_in_order (from_str : String → Option JsonValue) (capacity : Nat) (moves : List Move) (s : Session)
    (ran : run (Session.step from_str capacity) .start moves = some s) :
    let seen := fun see => Runs.trace (Session.step from_str capacity) see .start moves
    seen Session.queued = seen Session.received ++ s.queue ∧ s.queue.length ≤ capacity ∧
      seen Session.serialized = seen Session.permitted ++ s.held := by
  refine ⟨?_,?_,?_⟩
  · exact trace_conserves (P := fun _ => True) (C := Session.queue)
      (fun _ _ _ _ stepped => ⟨trivial,queue_conserved stepped⟩) trivial ran
  · exact invariant (P := fun s => s.queue.length ≤ capacity)
      (fun _ _ _ bounded stepped => queue_bounded stepped bounded) (Nat.zero_le _) ran
  · refine trace_conserves (P := fun s => Permits s ∧ Phased s) (C := Session.held) ?_ ?_ ran
    · rintro s _ _ ⟨permits,phased⟩ stepped
      have taken := step_taken stepped
      exact ⟨⟨permits.taken phased taken,phased.taken permits taken⟩,held_conserved permits phased stepped⟩
    · exact @orderly_run from_str capacity _ [] rfl

end

/-- A raw message overtakes two that are serialized. -/
def overtaken : List Move :=
  [.Send 0,.Send 1,.Serialized (.Sender 0) (some (.bool true)),.SendRaw 2 .null,.Queued (.Sender 2),.Queued (.Sender 0),
    .Receive,.Serialized (.Sender 1) (some (.bool false))]

theorem serialized_in_order_overtaken : ∃ s, run (Session.step emptyObject OUTBOUND_BUFFER) .start overtaken = some s ∧
    s.queue.length ≤ OUTBOUND_BUFFER ∧
    [JsonValue.bool true,.bool false] =
      Runs.trace (Session.step emptyObject OUTBOUND_BUFFER) Session.permitted .start overtaken ++ s.held := by
  refine ⟨_,rfl,?_⟩
  exact (serialized_in_order emptyObject OUTBOUND_BUFFER overtaken _ rfl).2

end Ferrin.Realtime
