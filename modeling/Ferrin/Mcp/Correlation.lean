import Ferrin.Mcp.Client

/-!
Requests and responses correlate: an outcome reaches the request whose number
it bears and no other, whatever the order of the steps, and a closed client
leaves no request waiting.
-/
namespace Ferrin.Mcp
open State Option Assoc Action Phase
open Option (map map_eq_some_iff)

/-- What a step comes to. -/
inductive Effect (s : State) : State → Prop where
  | start (t : Ticket) (r : Request) (absent : s.requests t = none) (bare : r.id = none) (empty : r.channel = none)
      (phase : r.phase = .Checked ∨ ∃ o, r.phase = .Done o) : Effect s (s.set t r)
  | register (t : Ticket) (r : Request) (found : s.requests t = some r) (checked : r.phase = .Checked) :
      Effect s (s.register t r)
  | send (t : Ticket) (r : Request) (found : s.requests t = some r) (registered : r.phase = .Registered)
      (connected : s.transport_closed = false) : Effect s (s.set t {r with phase := .Sending})
  | sent (t : Ticket) (r : Request) (found : s.requests t = some r) (sending : r.phase = .Sending) :
      Effect s (s.set t {r with phase := .Waiting})
  | finish (t : Ticket) (r : Request) (phase : Phase) (found : s.requests t = some r)
      (unfinished : r.phase.is_unfinished) (ended : phase = .Dropped ∨ ∃ o, phase = .Done o) :
      Effect s (s.finish t r phase)
  | deliver (n : Int) (t : Ticket) (o : Outcome) (listed : s.pending.lookup n = some t) :
      Effect s ((s.unregister n).deliver t o)
  | report (error : McpError) : Effect s (s.report error)
  | transport_closes : Effect s {s with transport_closed := true}
  | end_dispatch (spent : s.transport_closed ∨ s.cancelled) : Effect s s.end_dispatch
  | stop : Effect s s.stop

variable {s s' : State} {t u : Ticket} {o : Outcome} {default_timeout : Option Nat} {a : Action} {r : Request}
  {n : Int} {phase : Phase} {actions more : List Action} {error : McpError}

theorem caller_eq_some {phases : Phase → Bool} {next : Request → Option State} :
    s.caller t phases next = some s' ↔ ∃ r, s.requests t = some r ∧ phases r.phase ∧ next r = some s' := by
  unfold caller
  cases s.requests t with
  | none => simp
  | some => simp

theorem resolve_eq_some {id : RequestId} :
    s.resolve id o = some s' ↔ ∃ n t, id = .Number n ∧ s.pending.lookup n = some t ∧
      s' = (s.unregister n).deliver t o := by
  cases id with
  | String => simp [resolve]
  | Number n =>
    simp only [resolve,map_eq_some_iff]
    constructor
    · rintro ⟨t,listed,rfl⟩
      exact ⟨n,t,rfl,listed,rfl⟩
    · rintro ⟨_,t,same,listed,rfl⟩
      cases same
      exact ⟨t,listed,rfl⟩

def TransportEvent.address : TransportEvent → Option RequestId
  | .Message (.Response id _) => some id
  | .Message (.Error id _) => id
  | .Error _ => none
  | .RequestError id _ => some id

def TransportEvent.outcome : TransportEvent → Outcome
  | .Message (.Response _ result) => .ok result
  | .Message (.Error _ error) => .error error.outcome
  | .Error error => .error error
  | .RequestError _ error => .error error

theorem handle_event_cases (s : State) (e : TransportEvent) :
    (∃ n t, e.address = some (.Number n) ∧ s.pending.lookup n = some t ∧
        s.handle_event e = (s.unregister n).deliver t e.outcome) ∨
      (∃ error, s.handle_event e = s.report error) ∧
        ∀ n, e.address = some (.Number n) → s.pending.lookup n = none := by
  have resolved (id : RequestId) (o : Outcome) (error : McpError) :
      (∃ n t, id = .Number n ∧ s.pending.lookup n = some t ∧
          (s.resolve id o).getD (s.report error) = (s.unregister n).deliver t o) ∨
        (s.resolve id o).getD (s.report error) = s.report error ∧ ∀ n, id = .Number n → s.pending.lookup n = none := by
    cases found : s.resolve id o with
    | some =>
      obtain ⟨n,t,same,listed,rfl⟩ := resolve_eq_some.mp found
      exact .inl ⟨n,t,same,listed,rfl⟩
    | none =>
      refine .inr ⟨rfl,?_⟩
      rintro n rfl
      simpa [resolve] using found
  rcases e with ⟨⟨id,result⟩ | ⟨_ | id,error⟩⟩ | error | ⟨id,error⟩
  · rcases resolved id (.ok result) (.Protocol s!"received a response for unknown request id {id}") with ⟨n,t,rfl,listed,same⟩ | ⟨same,unknown⟩
    · exact .inl ⟨n,t,rfl,listed,same⟩
    · exact .inr ⟨⟨_,same⟩,fun n here => unknown n (some.inj here)⟩
  · exact .inr ⟨⟨_,rfl⟩,fun n here => by cases here⟩
  · rcases resolved id (.error error.outcome) error.outcome with ⟨n,t,rfl,listed,same⟩ | ⟨same,unknown⟩
    · exact .inl ⟨n,t,rfl,listed,same⟩
    · exact .inr ⟨⟨_,same⟩,fun n here => unknown n (some.inj here)⟩
  · exact .inr ⟨⟨_,rfl⟩,fun n here => by cases here⟩
  · rcases resolved id (.error error) (.Protocol s!"received a failure for unknown request id {id}") with ⟨n,t,rfl,listed,same⟩ | ⟨same,unknown⟩
    · exact .inl ⟨n,t,rfl,listed,same⟩
    · exact .inr ⟨⟨_,same⟩,fun n here => unknown n (some.inj here)⟩

theorem step_effect (taken : step default_timeout s a = some s') : Effect s s' := by
  cases a with
  | start t =>
    simp only [step] at taken
    split_ifs at taken with present shut
    · cases taken
      exact .start t _ (by simpa using present) rfl rfl (.inr ⟨_,rfl⟩)
    · cases taken
      exact .start t _ (by simpa using present) rfl rfl (.inl rfl)
  | register t =>
    simp only [step] at taken
    obtain ⟨r,found,checked,same⟩ := caller_eq_some.mp taken
    cases same
    exact .register t r found (by simpa using checked)
  | send t =>
    simp only [step] at taken
    obtain ⟨r,found,registered,same⟩ := caller_eq_some.mp taken
    have at_send : r.phase = .Registered := by simpa using registered
    split_ifs at same with gone
    · cases same
      exact .finish t r _ found (by rw [at_send]; rfl) (.inr ⟨_,rfl⟩)
    · cases same
      exact .send t r found at_send (by simpa using gone)
  | sent t =>
    simp only [step] at taken
    obtain ⟨r,found,sending,same⟩ := caller_eq_some.mp taken
    cases same
    exact .sent t r found (by simpa using sending)
  | send_failed t =>
    simp only [step] at taken
    obtain ⟨r,found,sending,same⟩ := caller_eq_some.mp taken
    have at_send : r.phase = .Sending := by simpa using sending
    cases same
    exact .finish t r _ found (by rw [at_send]; rfl) (.inr ⟨_,rfl⟩)
  | receive t =>
    simp only [step] at taken
    obtain ⟨r,found,waiting,same⟩ := caller_eq_some.mp taken
    have at_wait : r.phase = .Waiting := by simpa using waiting
    obtain ⟨o,_,rfl⟩ := map_eq_some_iff.mp same
    exact .finish t r _ found (by rw [at_wait]; rfl) (.inr ⟨_,rfl⟩)
  | timeout t =>
    simp only [step] at taken
    obtain ⟨r,found,unfinished,same⟩ := caller_eq_some.mp taken
    obtain ⟨_,_,rfl⟩ := map_eq_some_iff.mp same
    exact .finish t r _ found unfinished (.inr ⟨_,rfl⟩)
  | cancel t =>
    simp only [step] at taken
    obtain ⟨r,found,unfinished,same⟩ := caller_eq_some.mp taken
    cases same
    exact .finish t r _ found unfinished (.inr ⟨_,rfl⟩)
  | abort t =>
    simp only [step] at taken
    obtain ⟨r,found,unfinished,same⟩ := caller_eq_some.mp taken
    split_ifs at same
    cases same
    exact .finish t r _ found unfinished (.inr ⟨_,rfl⟩)
  | drop t =>
    simp only [step] at taken
    obtain ⟨r,found,unfinished,same⟩ := caller_eq_some.mp taken
    cases same
    exact .finish t r _ found unfinished (.inl rfl)
  | event e =>
    simp only [step] at taken
    split_ifs at taken
    cases taken
    rcases handle_event_cases s e with ⟨n,t,_,listed,same⟩ | ⟨⟨error,same⟩,_⟩
    · rw [same]
      exact .deliver n t e.outcome listed
    · rw [same]
      exact .report error
  | transport_closes =>
    cases taken
    exact .transport_closes
  | end_dispatch =>
    simp only [step] at taken
    split_ifs at taken with spent
    cases taken
    simp only [Bool.and_eq_true,Bool.or_eq_true] at spent
    exact .end_dispatch spent.2
  | stop =>
    cases taken
    exact .stop

/-! ### The state between two steps -/

/-- The pending map lists exactly the exchanges that hold their guard and have
    no outcome yet, each under its own number. -/
structure Valid (s : State) : Prop where
  keyed : Assoc.Keyed s.pending
  listed : ∀ n t, s.pending.lookup n = some t →
    ∃ r, s.requests t = some r ∧ r.phase.is_live ∧ r.id = some n ∧ r.channel = none
  awaited : ∀ t r, s.requests t = some r → r.phase.is_live → r.channel = none →
    ∃ n, r.id = some n ∧ s.pending.lookup n = some t
  unregistered : ∀ t r, s.requests t = some r → r.phase = .Checked → r.id = none ∧ r.channel = none
  fresh : ∀ t r n, s.requests t = some r → r.id = some n → n < s.next_id
  distinct : ∀ t u r q n, s.requests t = some r → s.requests u = some q → r.id = some n → q.id = some n → t = u
  disconnected : s.closed → s.cancelled = false → s.transport_closed
  answered : s.closed → s.cancelled = false → ∀ t r, s.requests t = some r → r.phase = .Sending ∨ r.phase = .Waiting →
    r.channel.isSome

theorem valid_init : Valid .init := by
  constructor <;> intros <;> simp_all [init,Assoc.Keyed]

/-- One request replaced, with the pending map and the counter that go with it. -/
def State.update (s : State) (t : Ticket) (r : Request) (pending : List (Int × Ticket)) (next_id : Int) : State :=
  {s.set t r with pending,next_id}

theorem requests_update (s : State) (t u : Ticket) (r : Request) (pending : List (Int × Ticket)) (next_id : Int) :
    (s.update t r pending next_id).requests u = if u = t then some r else s.requests u :=
  Function.update_apply ..

theorem deliver_eq (n : Int) (o : Outcome) (found : s.requests t = some r) :
    (s.unregister n).deliver t o =
      s.update t {r with channel := some o} (Assoc.remove s.pending n) s.next_id := by
  have same : (s.unregister n).requests t = some r := found
  simp only [deliver,same]
  rfl

theorem finish_eq (t : Ticket) (phase : Phase) (id : r.id = some n) :
    s.finish t r phase = s.update t {r with phase} (Assoc.remove s.pending n) s.next_id := by
  simp only [finish,id]
  rfl

theorem finish_eq_unregistered (t : Ticket) (phase : Phase) (id : r.id = none) :
    s.finish t r phase = s.update t {r with phase} s.pending s.next_id := by
  simp only [finish,id]
  rfl

structure Replaces (s : State) (t : Ticket) (r : Request) (pending : List (Int × Ticket)) (next_id : Int) : Prop where
  keyed : Assoc.Keyed pending
  others : ∀ n u, u ≠ t → (pending.lookup n = some u ↔ s.pending.lookup n = some u)
  listed : ∀ n, pending.lookup n = some t → r.phase.is_live ∧ r.id = some n ∧ r.channel = none
  awaited : r.phase.is_live → r.channel = none → ∃ n, r.id = some n ∧ pending.lookup n = some t
  unregistered : r.phase = .Checked → r.id = none ∧ r.channel = none
  counted : s.next_id ≤ next_id
  numbered : ∀ n, r.id = some n →
    (∃ q, s.requests t = some q ∧ q.id = some n) ∨ s.next_id ≤ n ∧ n < next_id
  answered : s.closed → s.cancelled = false → r.phase = .Sending ∨ r.phase = .Waiting → r.channel.isSome

section
variable (valid : Valid s)
include valid

theorem Valid.update {pending : List (Int × Ticket)} {next_id : Int}
   (replaces : Replaces s t r pending next_id) : Valid (s.update t r pending next_id) := by
  have cases_of {u : Ticket} {q : Request} (found : (s.update t r pending next_id).requests u = some q) :
      u = t ∧ q = r ∨ u ≠ t ∧ s.requests u = some q := by
    rw [requests_update] at found
    split_ifs at found with same
    · exact .inl ⟨same,(some.inj found).symm⟩
    · exact .inr ⟨same,found⟩
  have numbered {n : Int} (id : r.id = some n) {u : Ticket} {q : Request} (found : s.requests u = some q)
      (same : q.id = some n) : u = t := by
    rcases replaces.numbered n id with ⟨old,here,before⟩ | ⟨later,_⟩
    · exact valid.distinct u t q old n found here same before
    · exact absurd (valid.fresh u q n found same) (by omega)
  constructor
  · exact replaces.keyed
  · intro n u here
    by_cases same : u = t
    · subst same
      exact ⟨r,by simp [requests_update],replaces.listed n here⟩
    · obtain ⟨q,found,rest⟩ := valid.listed n u ((replaces.others n u same).mp here)
      exact ⟨q,by simp [requests_update,same,found],rest⟩
  · intro u q found live open_channel
    rcases cases_of found with ⟨rfl,rfl⟩ | ⟨differs,before⟩
    · exact replaces.awaited live open_channel
    · obtain ⟨n,id,here⟩ := valid.awaited u q before live open_channel
      exact ⟨n,id,(replaces.others n u differs).mpr here⟩
  · intro u q found checked
    rcases cases_of found with ⟨rfl,rfl⟩ | ⟨_,before⟩
    · exact replaces.unregistered checked
    · exact valid.unregistered u q before checked
  · intro u q n found id
    rcases cases_of found with ⟨rfl,rfl⟩ | ⟨_,before⟩
    · rcases replaces.numbered n id with ⟨old,here,same⟩ | ⟨_,bound⟩
      · exact Int.lt_of_lt_of_le (valid.fresh u old n here same) replaces.counted
      · exact bound
    · exact Int.lt_of_lt_of_le (valid.fresh u q n before id) replaces.counted
  · intro u v q p n found there id same
    rcases cases_of found with ⟨rfl,rfl⟩ | ⟨_,before⟩ <;> rcases cases_of there with ⟨rfl,rfl⟩ | ⟨_,later⟩
    · rfl
    · exact (numbered id later same).symm
    · exact numbered same before id
    · exact valid.distinct u v q p n before later id same
  · exact valid.disconnected
  · intro shut running u q found waits
    rcases cases_of found with ⟨rfl,rfl⟩ | ⟨_,before⟩
    · exact replaces.answered shut running waits
    · exact valid.answered shut running u q before waits

theorem Valid.start (absent : s.requests t = none)
    (bare : r.id = none) (empty : r.channel = none) (phase : r.phase = .Checked ∨ ∃ o, r.phase = .Done o) :
    Valid (s.set t r) := by
  have idle : r.phase.is_live = false := by rcases phase with same | ⟨o,same⟩ <;> rw [same] <;> rfl
  show Valid (s.update t r s.pending s.next_id)
  refine valid.update ⟨valid.keyed,fun _ _ _ => .rfl,?_,?_,?_,Int.le_refl _,?_,?_⟩
  · intro n here
    obtain ⟨q,found,_⟩ := valid.listed n t here
    simp [absent] at found
  · simp [idle]
  · exact fun _ => ⟨bare,empty⟩
  · simp [bare]
  · rcases phase with same | ⟨o,same⟩ <;> simp [same]

theorem Valid.register (found : s.requests t = some r)
    (checked : r.phase = .Checked) : Valid (s.register t r) := by
  have bare := valid.unregistered t r found checked
  have unused {u : Ticket} : s.pending.lookup s.next_id ≠ some u := by
    intro here
    obtain ⟨q,there,_,id,_⟩ := valid.listed _ u here
    exact absurd (valid.fresh u q _ there id) (by omega)
  show Valid (s.update t {r with phase := .Registered, id := some s.next_id} (put s.pending s.next_id t)
    (s.next_id + 1))
  refine valid.update ⟨valid.keyed.put _ _,?_,?_,?_,?_,by omega,?_,?_⟩
  · intro n u differs
    rw [lookup_put]
    split_ifs with same
    · subst same
      simp [unused,Ne.symm differs]
    · exact .rfl
  · intro n here
    rw [lookup_put] at here
    split_ifs at here with same
    · exact ⟨rfl,by rw [same],bare.2⟩
    · obtain ⟨q,there,live,_⟩ := valid.listed n t here
      rw [found] at there
      cases there
      simp [checked,is_live] at live
  · exact fun _ _ => ⟨s.next_id,rfl,by simp [lookup_put]⟩
  · intro same
    cases same
  · intro n id
    cases id
    exact .inr ⟨Int.le_refl _,by omega⟩
  · rintro _ _ (same | same) <;> cases same

theorem Valid.advance
    (found : s.requests t = some r) (live : r.phase.is_live) (still : phase.is_live)
    (answered : s.closed → s.cancelled = false → r.channel.isSome) : Valid (s.set t {r with phase}) := by
  show Valid (s.update t {r with phase} s.pending s.next_id)
  refine valid.update ⟨valid.keyed,fun _ _ _ => .rfl,?_,?_,?_,Int.le_refl _,?_,?_⟩
  · intro n here
    obtain ⟨q,there,_,rest⟩ := valid.listed n t here
    rw [found] at there
    cases there
    exact ⟨still,rest⟩
  · exact fun _ open_channel => valid.awaited t r found live open_channel
  · rintro rfl
    cases still
  · exact fun n id => .inl ⟨r,found,id⟩
  · exact fun shut running _ => answered shut running

theorem Valid.finish
    (found : s.requests t = some r) (ended : phase = .Dropped ∨ ∃ o, phase = .Done o) :
    Valid (s.finish t r phase) := by
  have idle : phase.is_live = false := by rcases ended with rfl | ⟨o,rfl⟩ <;> rfl
  have unchecked : phase ≠ .Checked := by rcases ended with rfl | ⟨o,rfl⟩ <;> simp
  have silent : ¬ (phase = .Sending ∨ phase = .Waiting) := by rcases ended with rfl | ⟨o,rfl⟩ <;> simp
  cases id : r.id with
  | none =>
    rw [finish_eq_unregistered t phase id]
    refine valid.update ⟨valid.keyed,fun _ _ _ => .rfl,?_,?_,?_,Int.le_refl _,?_,?_⟩
    · intro n here
      obtain ⟨q,there,_,same,_⟩ := valid.listed n t here
      rw [found] at there
      cases there
      simp [id] at same
    · simp [idle]
    · exact fun same => absurd same unchecked
    · simp [id]
    · exact fun _ _ waits => absurd waits silent
  | some n =>
    rw [finish_eq t phase id]
    refine valid.update ⟨valid.keyed.remove n,?_,?_,?_,?_,Int.le_refl _,?_,?_⟩
    · intro m u differs
      rw [lookup_remove]
      split_ifs with same
      · subst same
        refine ⟨fun here => (by cases here),fun here => ?_⟩
        obtain ⟨q,there,_,other,_⟩ := valid.listed m u here
        exact absurd (valid.distinct u t q r m there found other id) differs
      · exact .rfl
    · intro m here
      rw [lookup_remove] at here
      split_ifs at here with same
      obtain ⟨q,there,_,other,_⟩ := valid.listed m t here
      rw [found] at there
      cases there
      rw [id] at other
      exact absurd (some.inj other).symm same
    · simp [idle]
    · exact fun same => absurd same unchecked
    · exact fun m other => .inl ⟨r,found,other⟩
    · exact fun _ _ waits => absurd waits silent

theorem Valid.deliver
    (here : s.pending.lookup n = some t) : Valid ((s.unregister n).deliver t o) := by
  obtain ⟨r,found,live,id,_⟩ := valid.listed n t here
  rw [deliver_eq n o found]
  refine valid.update ⟨valid.keyed.remove n,?_,?_,?_,?_,Int.le_refl _,?_,?_⟩
  · intro m u differs
    rw [lookup_remove]
    split_ifs with same
    · subst same
      refine ⟨fun none_here => (by cases none_here),fun there => ?_⟩
      exact absurd (some.inj (there.symm.trans here)) differs
    · exact .rfl
  · intro m there
    rw [lookup_remove] at there
    split_ifs at there with same
    obtain ⟨q,again,_,other,_⟩ := valid.listed m t there
    rw [found] at again
    cases again
    rw [id] at other
    exact absurd (some.inj other).symm same
  · simp
  · intro checked
    simp only at checked
    simp [checked,is_live] at live
  · exact fun m other => .inl ⟨r,found,other⟩
  · simp

theorem requests_fail_pending (error : McpError)
    (found : (s.fail_pending error).requests t = some r) : ∃ before, s.requests t = some before ∧
      ((r = before ∧ ∀ n, s.pending.lookup n ≠ some t) ∨
        ∃ n, s.pending.lookup n = some t ∧ r = {before with channel := some (.error error)}) := by
  obtain ⟨before,here,same⟩ := map_eq_some_iff.mp found
  refine ⟨before,here,?_⟩
  split_ifs at same with listed
  · obtain ⟨⟨n,u⟩,mem,owner⟩ := List.any_eq_true.mp listed
    have same_ticket : u = t := by simpa using owner
    subst same_ticket
    exact .inr ⟨n,valid.keyed n u mem,same.symm⟩
  · refine .inl ⟨same.symm,fun n there => listed (List.any_eq_true.mpr ⟨(n,t),?_,by simp⟩)⟩
    exact mem_of_lookup there

theorem Valid.fail_pending (error : McpError)
    (next : State) (same : next.requests = (s.fail_pending error).requests) (empty : next.pending = [])
    (counter : next.next_id = s.next_id) (gone : next.closed → next.cancelled = false → next.transport_closed) :
    Valid next := by
  have before {t : Ticket} {r : Request} (found : next.requests t = some r) := by
    rw [same] at found
    exact requests_fail_pending valid error found
  have filled {t : Ticket} {r : Request} (found : next.requests t = some r) (live : r.phase.is_live) :
      r.channel.isSome := by
    obtain ⟨q,there,⟨rfl,unlisted⟩ | ⟨n,_,rfl⟩⟩ := before found
    · by_contra open_channel
      obtain ⟨n,_,listed⟩ := valid.awaited t r there live (by simpa using open_channel)
      exact unlisted n listed
    · rfl
  constructor
  · intro n t member
    rw [empty] at member
    cases member
  · intro n t here
    rw [empty] at here
    cases here
  · intro t r found live open_channel
    have answer := filled found live
    simp [open_channel] at answer
  · intro t r found checked
    obtain ⟨q,there,⟨rfl,_⟩ | ⟨n,listed,rfl⟩⟩ := before found
    · exact valid.unregistered t r there checked
    · obtain ⟨p,again,live,_⟩ := valid.listed n t listed
      rw [there] at again
      cases again
      rw [show q.phase = .Checked from checked] at live
      cases live
  · intro t r n found id
    rw [counter]
    obtain ⟨q,there,⟨rfl,_⟩ | ⟨_,_,rfl⟩⟩ := before found
    · exact valid.fresh t r n there id
    · exact valid.fresh t q n there id
  · intro t u r q n found there id other
    obtain ⟨r',here,first⟩ := before found
    obtain ⟨q',again,second⟩ := before there
    refine valid.distinct t u r' q' n here again ?_ ?_
    · rcases first with ⟨rfl,_⟩ | ⟨_,_,rfl⟩ <;> exact id
    · rcases second with ⟨rfl,_⟩ | ⟨_,_,rfl⟩ <;> exact other
  · exact gone
  · intro _ _ t r found waits
    exact filled found (by rcases waits with same | same <;> rw [same] <;> rfl)

theorem valid_effect (effect : Effect s s') : Valid s' := by
  cases effect with
  | start t r absent bare empty phase => exact valid.start absent bare empty phase
  | register t r found checked => exact valid.register found checked
  | send t r found registered connected =>
    refine valid.advance found (by rw [registered]; rfl) rfl fun shut running => ?_
    simp [valid.disconnected shut running] at connected
  | sent t r found sending =>
    exact valid.advance found (by rw [sending]; rfl) rfl fun shut running =>
      valid.answered shut running t r found (.inl sending)
  | finish _ _ _ found _ ended => exact valid.finish found ended
  | deliver n t o listed => exact valid.deliver listed
  | report =>
    exact ⟨valid.keyed,valid.listed,valid.awaited,valid.unregistered,valid.fresh,valid.distinct,valid.disconnected,
      valid.answered⟩
  | transport_closes =>
    exact ⟨valid.keyed,valid.listed,valid.awaited,valid.unregistered,valid.fresh,valid.distinct,fun _ _ => rfl,
      valid.answered⟩
  | end_dispatch spent =>
    refine valid.fail_pending .Closed s.end_dispatch rfl rfl rfl fun _ running => ?_
    rcases spent with gone | cancelled
    · exact gone
    · exact absurd cancelled (by rw [show s.cancelled = false from running]; simp)
  | stop =>
    refine valid.fail_pending .Closed s.stop rfl rfl rfl fun _ running => ?_
    cases running

end

theorem valid_run (ran : run default_timeout actions = some s) : Valid s :=
  Runs.invariant (fun _ _ _ valid taken => valid_effect valid (step_effect taken)) valid_init ran

/-! ### One outcome -/

/-- What the caller of a request has been given. -/
def State.outcome (s : State) (t : Ticket) : Option Outcome :=
  match s.requests t with
  | some ⟨.Done o,_,_,_⟩ => some o
  | _ => none

theorem outcome_eq_some : s.outcome t = some o ↔ ∃ r, s.requests t = some r ∧ r.phase = .Done o := by
  unfold outcome
  rcases s.requests t with _ | ⟨phase,_,_,_⟩
  · simp
  · cases phase <;> simp

theorem found_fail_pending (error : McpError) (found : s.requests t = some r) :
    ∃ q, (s.fail_pending error).requests t = some q ∧ q.phase = r.phase := by
  refine ⟨_,congrArg (map _) found,?_⟩
  split_ifs <;> rfl

theorem finished_effect (effect : Effect s s')
    (found : s.requests t = some r) (finished : r.phase.is_unfinished = false) :
    ∃ q, s'.requests t = some q ∧ q.phase = r.phase := by
  have replaced {u : Ticket} {p : Request} (differs : u ≠ t) : ∃ q, (s.set u p).requests t = some q ∧ q.phase = r.phase :=
    ⟨r,by simp [State.set,Ne.symm differs,found],rfl⟩
  have apart {u : Ticket} {p : Request} (there : s.requests u = some p) (unfinished : p.phase.is_unfinished) : u ≠ t := by
    rintro rfl
    rw [found] at there
    cases there
    simp [finished] at unfinished
  cases effect with
  | start u p absent _ _ _ =>
    refine replaced ?_
    rintro rfl
    simp [absent] at found
  | register u p there checked => exact replaced (apart there (by rw [checked]; rfl))
  | send _ _ there registered => exact replaced (apart there (by rw [registered]; rfl))
  | sent u p there sending => exact replaced (apart there (by rw [sending]; rfl))
  | finish _ p _ there unfinished =>
    unfold finish
    cases p.id <;> exact replaced (apart there unfinished)
  | deliver _ u o =>
    unfold deliver
    split
    case h_1 p there =>
      by_cases same : u = t
      · subst same
        refine ⟨{p with channel := some o},by simp [State.set],?_⟩
        rw [show s.requests u = some p from there] at found
        cases found
        rfl
      · exact ⟨r,by simp [State.set,State.unregister,Ne.symm same,found],rfl⟩
    case h_2 => exact ⟨r,found,rfl⟩
  | report => exact ⟨r,found,rfl⟩
  | transport_closes => exact ⟨r,found,rfl⟩
  | end_dispatch => exact found_fail_pending (s := {s with closed := true, reading := false}) .Closed found
  | stop => exact found_fail_pending (s := {s with closed := true, cancelled := true}) .Closed found

theorem outcome_stays (ran : Runs.run (step default_timeout) s more = some s') (given : s.outcome t = some o) :
    s'.outcome t = some o := by
  refine Runs.invariant (P := fun s => s.outcome t = some o) (fun before a after holds taken => ?_) given ran
  obtain ⟨r,found,ended⟩ := outcome_eq_some.mp holds
  obtain ⟨q,there,same⟩ := finished_effect (step_effect taken) found (by rw [ended]; rfl)
  exact outcome_eq_some.mpr ⟨q,there,same.trans ended⟩

def State.channel (s : State) (t : Ticket) : Option Outcome := (s.requests t).bind (·.channel)

/-- How an action gives a request its outcome: a step of its own caller, a
    message that bears its number, or the closing of the client. -/
inductive Origin (s : State) (t : Ticket) : Action → Outcome → Prop where
  | refused (options : RequestOptions) (shut : s.closed) : Origin s t (.start t options) (.error .Closed)
  | unsent (gone : s.transport_closed) : Origin s t (.send t) (.error .Closed)
  | failed (error : McpError) : Origin s t (.send_failed t error) (.error error)
  | timeout (duration : Nat) : Origin s t (.timeout t) (.error (.Timeout duration))
  | cancelled : Origin s t (.cancel t) (.error .Cancelled)
  | aborted (stopped : s.cancelled) : Origin s t (.abort t) (.error .Closed)
  | addressed (event : TransportEvent) (n : Int) (r : Request) (found : s.requests t = some r) (own : r.id = some n)
      (address : event.address = some (.Number n)) : Origin s t (.event event) event.outcome
  | ended : Origin s t .end_dispatch (.error .Closed)
  | stopped : Origin s t .stop (.error .Closed)

theorem outcome_of_set (given : (s.set u r).outcome t = some o) :
    s.outcome t = some o ∨ u = t ∧ r.phase = .Done o := by
  obtain ⟨q,found,ended⟩ := outcome_eq_some.mp given
  by_cases same : u = t
  · subst same
    simp only [State.set,Function.update_self,some.injEq] at found
    exact .inr ⟨rfl,found ▸ ended⟩
  · simp only [State.set,Function.update_of_ne (Ne.symm same)] at found
    exact .inl (outcome_eq_some.mpr ⟨q,found,ended⟩)

theorem outcome_of_finish
    (given : (s.finish u r phase).outcome t = some o) : s.outcome t = some o ∨ u = t ∧ phase = .Done o := by
  unfold finish at given
  dsimp only at given
  split at given
  · exact outcome_of_set (r := {r with phase}) (s := s) given
  · exact outcome_of_set given

theorem outcome_of_fail_pending (given : (s.fail_pending error).outcome t = some o) : s.outcome t = some o := by
  obtain ⟨q,found,ended⟩ := outcome_eq_some.mp given
  obtain ⟨r,here,same⟩ := map_eq_some_iff.mp found
  refine outcome_eq_some.mpr ⟨r,here,?_⟩
  rw [← ended,← same]
  split_ifs <;> rfl

theorem outcome_of_handle_event (valid : Valid s) {e : TransportEvent}
    (given : (s.handle_event e).outcome t = some o) : s.outcome t = some o := by
  rcases handle_event_cases s e with ⟨n,u,_,listed,same⟩ | ⟨⟨_,same⟩,_⟩
  · rw [same] at given
    obtain ⟨r,found,live,_⟩ := valid.listed n u listed
    rw [deliver_eq n _ found] at given
    rcases outcome_of_set (r := {r with channel := some e.outcome}) (s := s) given with before | ⟨_,ended⟩
    · exact before
    · simp only at ended
      simp [ended,is_live] at live
  · rw [same] at given
    exact given

theorem outcome_of_step
    (valid : Valid s) (taken : step default_timeout s a = some s') (not_yet : s.outcome t ≠ some o)
    (given : s'.outcome t = some o) : Origin s t a o ∨ s.channel t = some o := by
  cases a with
  | start u options =>
    simp only [step] at taken
    split_ifs at taken with present shut
    · cases taken
      rcases outcome_of_set given with before | ⟨rfl,ended⟩
      · exact absurd before not_yet
      · cases ended
        exact .inl (.refused options shut)
    · cases taken
      rcases outcome_of_set given with before | ⟨rfl,ended⟩
      · exact absurd before not_yet
      · cases ended
  | register =>
    simp only [step] at taken
    obtain ⟨r,found,_,same⟩ := caller_eq_some.mp taken
    cases same
    rcases outcome_of_set (r := {r with phase := .Registered, id := some s.next_id}) (s := s) given with
      before | ⟨rfl,ended⟩
    · exact absurd before not_yet
    · cases ended
  | send =>
    simp only [step] at taken
    obtain ⟨r,found,_,same⟩ := caller_eq_some.mp taken
    split_ifs at same with gone
    · cases same
      rcases outcome_of_finish given with before | ⟨rfl,ended⟩
      · exact absurd before not_yet
      · cases ended
        exact .inl (.unsent gone)
    · cases same
      rcases outcome_of_set given with before | ⟨rfl,ended⟩
      · exact absurd before not_yet
      · cases ended
  | sent =>
    simp only [step] at taken
    obtain ⟨r,found,sending,same⟩ := caller_eq_some.mp taken
    cases same
    rcases outcome_of_set given with before | ⟨rfl,ended⟩
    · exact absurd before not_yet
    · cases ended
  | send_failed u error =>
    simp only [step] at taken
    obtain ⟨r,found,_,same⟩ := caller_eq_some.mp taken
    cases same
    rcases outcome_of_finish given with before | ⟨rfl,ended⟩
    · exact absurd before not_yet
    · cases ended
      exact .inl (.failed error)
  | receive u =>
    simp only [step] at taken
    obtain ⟨r,found,waiting,same⟩ := caller_eq_some.mp taken
    have at_wait : r.phase = .Waiting := by simpa using waiting
    obtain ⟨_,received,rfl⟩ := map_eq_some_iff.mp same
    rcases outcome_of_finish given with before | ⟨rfl,ended⟩
    · exact absurd before not_yet
    · cases ended
      right
      unfold State.received at received
      cases sent : r.channel with
      | some =>
        rw [sent] at received
        cases received
        simp [State.channel,found,sent]
      | none =>
        -- an exchange without an outcome is still in the map
        obtain ⟨n,id,listed⟩ := valid.awaited u r found (by rw [at_wait]; rfl) sent
        simp [sent,id,listed] at received
  | timeout u =>
    simp only [step] at taken
    obtain ⟨r,found,unfinished,same⟩ := caller_eq_some.mp taken
    obtain ⟨duration,_,rfl⟩ := map_eq_some_iff.mp same
    rcases outcome_of_finish given with before | ⟨rfl,ended⟩
    · exact absurd before not_yet
    · cases ended
      exact .inl (.timeout duration)
  | cancel u =>
    simp only [step] at taken
    obtain ⟨r,found,unfinished,same⟩ := caller_eq_some.mp taken
    cases same
    rcases outcome_of_finish given with before | ⟨rfl,ended⟩
    · exact absurd before not_yet
    · cases ended
      exact .inl .cancelled
  | abort u =>
    simp only [step] at taken
    obtain ⟨r,found,unfinished,same⟩ := caller_eq_some.mp taken
    split_ifs at same with cancelled
    cases same
    rcases outcome_of_finish given with before | ⟨rfl,ended⟩
    · exact absurd before not_yet
    · cases ended
      exact .inl (.aborted cancelled)
  | drop u =>
    simp only [step] at taken
    obtain ⟨r,_,_,same⟩ := caller_eq_some.mp taken
    cases same
    rcases outcome_of_finish given with before | ⟨rfl,ended⟩
    · exact absurd before not_yet
    · cases ended
  | event e =>
    simp only [step] at taken
    split_ifs at taken
    cases taken
    exact absurd (outcome_of_handle_event valid given) not_yet
  | transport_closes =>
    cases taken
    exact absurd given not_yet
  | end_dispatch =>
    simp only [step] at taken
    split_ifs at taken
    cases taken
    exact absurd (outcome_of_fail_pending given) not_yet
  | stop =>
    cases taken
    exact absurd (outcome_of_fail_pending given) not_yet

theorem channel_set (s : State) (t u : Ticket) (r : Request) :
    (s.set u r).channel t = if t = u then r.channel else s.channel t := by
  simp only [State.channel,State.set,Function.update_apply]
  split_ifs <;> rfl

theorem channel_set_of_found {q : Request} (found : s.requests u = some r)
    (same : q.channel = r.channel) : (s.set u q).channel t = s.channel t := by
  rw [channel_set]
  split_ifs with here
  · subst here
    simp [State.channel,found,same]
  · rfl

theorem channel_finish (found : s.requests u = some r) : (s.finish u r phase).channel t = s.channel t := by
  have same : (s.set u {r with phase}).channel t = s.channel t := channel_set_of_found found rfl
  unfold finish
  dsimp only
  split <;> exact same

theorem channel_of_fail_pending
    (sent : (s.fail_pending error).channel t = some o) : s.channel t = some o ∨ o = .error error := by
  obtain ⟨q,found,same⟩ := Option.bind_eq_some_iff.mp sent
  obtain ⟨r,here,rfl⟩ := map_eq_some_iff.mp found
  split_ifs at same
  · exact .inr (some.inj same).symm
  · exact .inl (Option.bind_eq_some_iff.mpr ⟨r,here,same⟩)

theorem channel_of_step
    (valid : Valid s) (taken : step default_timeout s a = some s') (not_yet : s.channel t ≠ some o)
    (sent : s'.channel t = some o) : Origin s t a o := by
  cases a with
  | start =>
    simp only [step] at taken
    split_ifs at taken with present shut <;> cases taken <;> rw [channel_set] at sent <;> split_ifs at sent
    · exact absurd sent not_yet
    · exact absurd sent not_yet
  | register =>
    simp only [step] at taken
    obtain ⟨r,found,_,same⟩ := caller_eq_some.mp taken
    cases same
    exact absurd ((channel_set_of_found (q := {r with phase := .Registered, id := some s.next_id}) found rfl).symm.trans
      sent) not_yet
  | send =>
    simp only [step] at taken
    obtain ⟨r,found,_,same⟩ := caller_eq_some.mp taken
    split_ifs at same <;> cases same
    · exact absurd ((channel_finish found).symm.trans sent) not_yet
    · exact absurd ((channel_set_of_found (q := {r with phase := .Sending}) found rfl).symm.trans sent) not_yet
  | sent =>
    simp only [step] at taken
    obtain ⟨r,found,_,same⟩ := caller_eq_some.mp taken
    cases same
    exact absurd ((channel_set_of_found (q := {r with phase := .Waiting}) found rfl).symm.trans sent) not_yet
  | send_failed u _ | cancel u | drop u =>
    simp only [step] at taken
    obtain ⟨r,found,_,same⟩ := caller_eq_some.mp taken
    cases same
    exact absurd ((channel_finish found).symm.trans sent) not_yet
  | receive u | timeout u =>
    simp only [step] at taken
    obtain ⟨r,found,_,same⟩ := caller_eq_some.mp taken
    obtain ⟨_,_,rfl⟩ := map_eq_some_iff.mp same
    exact absurd ((channel_finish found).symm.trans sent) not_yet
  | abort =>
    simp only [step] at taken
    obtain ⟨r,found,_,same⟩ := caller_eq_some.mp taken
    split_ifs at same
    cases same
    exact absurd ((channel_finish found).symm.trans sent) not_yet
  | event e =>
    simp only [step] at taken
    split_ifs at taken
    cases taken
    rcases handle_event_cases s e with ⟨n,u,address,listed,same⟩ | ⟨⟨_,same⟩,_⟩
    · rw [same] at sent
      obtain ⟨r,found,_,own,_⟩ := valid.listed n u listed
      have delivered : (s.set u {r with channel := some e.outcome}).channel t = some o := by
        rw [deliver_eq n _ found] at sent
        exact sent
      rw [channel_set] at delivered
      split_ifs at delivered with here
      · cases delivered
        subst here
        exact .addressed e n r found own address
      · exact absurd delivered not_yet
    · rw [same] at sent
      exact absurd sent not_yet
  | transport_closes =>
    cases taken
    exact absurd sent not_yet
  | end_dispatch =>
    simp only [step] at taken
    split_ifs at taken
    cases taken
    rcases channel_of_fail_pending sent with before | rfl
    · exact absurd before not_yet
    · exact .ended
  | stop =>
    cases taken
    rcases channel_of_fail_pending sent with before | rfl
    · exact absurd before not_yet
    · exact .stopped

theorem origin_of_channel (ran : run default_timeout actions = some s) (sent : s.channel t = some o) :
    ∃ before a after mid, actions = before ++ a :: after ∧ run default_timeout before = some mid ∧ Origin mid t a o := by
  obtain ⟨before,a,after,mid,_,split_at,first,not_yet,taken,now,_⟩ :=
    Runs.becomes (P := fun s => s.channel t = some o) ran (by simp [State.channel,init]) sent
  exact ⟨before,a,after,mid,split_at,first,channel_of_step (valid_run first) taken not_yet now⟩

theorem origin_of_outcome (ran : run default_timeout actions = some s) (given : s.outcome t = some o) :
    ∃ before a after mid, actions = before ++ a :: after ∧ run default_timeout before = some mid ∧ Origin mid t a o := by
  obtain ⟨before,a,after,mid,_,split_at,first,not_yet,taken,now,_⟩ :=
    Runs.becomes (P := fun s => s.outcome t = some o) ran (by simp [outcome,init]) given
  rcases outcome_of_step (valid_run first) taken not_yet now with here | sent
  · exact ⟨before,a,after,mid,split_at,first,here⟩
  · obtain ⟨earlier,b,later,start,split_before,before_run,here⟩ := origin_of_channel first sent
    refine ⟨earlier,b,later ++ a :: after,start,?_,before_run,here⟩
    rw [split_at,split_before,List.append_assoc,List.cons_append]

/-! ### Nothing else is touched -/

theorem event_touches (valid : Valid s) (e : TransportEvent)
    (changed : (s.handle_event e).requests t ≠ s.requests t) :
    ∃ r n, s.requests t = some r ∧ r.phase.is_live ∧ r.id = some n ∧ r.channel = none ∧
      e.address = some (.Number n) ∧
      (s.handle_event e).requests t = some {r with channel := some e.outcome} ∧
      (s.handle_event e).pending.lookup n = none := by
  rcases handle_event_cases s e with ⟨n,u,address,listed,same⟩ | ⟨⟨_,same⟩,_⟩
  · obtain ⟨r,found,live,own,unsent⟩ := valid.listed n u listed
    rw [deliver_eq n _ found] at same
    rw [same,requests_update] at changed ⊢
    by_cases here : t = u
    · subst here
      rw [if_pos rfl]
      exact ⟨r,n,found,live,own,unsent,address,rfl,by rw [update,lookup_remove,if_pos rfl]⟩
    · rw [if_neg here] at changed
      exact absurd rfl changed
  · rw [same] at changed
    exact absurd rfl changed

/-- The steps by which a caller comes to its end. -/
def Action.is_own (t : Ticket) (a : Action) : Bool :=
  a = .register t || a = .send t || a = .sent t || a = .receive t || a = .abort t

theorem outcome_finish : (s.finish t r (.Done o)).outcome t = some o := by
  refine outcome_eq_some.mpr ⟨{r with phase := .Done o},?_,rfl⟩
  unfold finish
  dsimp only
  split <;> simp [State.set,State.unregister]

theorem ends_when_closed (valid : Valid s)
    (shut : s.closed) (found : s.requests t = some r) (unfinished : r.phase.is_unfinished) :
    ∃ steps s' o, (∀ a ∈ steps, Action.is_own t a) ∧ Runs.run (step default_timeout) s steps = some s' ∧
      s'.outcome t = some o := by
  have aborts (cancelled : s.cancelled) : ∃ steps s' o, (∀ a ∈ steps, is_own t a) ∧
      Runs.run (step default_timeout) s steps = some s' ∧ s'.outcome t = some o := by
    refine ⟨[.abort t],s.finish t r (.Done (.error .Closed)),_,by simp [is_own],?_,outcome_finish⟩
    simp [Runs.run,step,caller,found,unfinished,cancelled]
  cases running : s.cancelled with
  | true => exact aborts running
  | false =>
    have gone := valid.disconnected shut running
    have receives (waiting : State) (q : Request) (o : Outcome) (there : waiting.requests t = some q)
        (at_wait : q.phase = .Waiting) (sent : q.channel = some o) :
        step default_timeout waiting (.receive t) = some (waiting.finish t q (.Done o)) := by
      simp [step,caller,there,at_wait,State.received,sent]
    have refuses (registered : State) (q : Request) (there : registered.requests t = some q)
        (at_send : q.phase = .Registered) (closed_there : registered.transport_closed) :
        step default_timeout registered (.send t) = some (registered.finish t q (.Done (.error .Closed))) := by
      simp [step,caller,there,at_send,closed_there]
    cases phase : r.phase with
    | Checked =>
      have registers : step default_timeout s (.register t) = some (s.register t r) := by
        simp [step,caller,found,phase]
      have fails := refuses (s.register t r) {r with phase := .Registered, id := some s.next_id}
        (by simp [State.register,State.set]) rfl gone
      exact ⟨[.register t,.send t],_,_,by simp [is_own],Runs.run_cons.mpr ⟨_,registers,Runs.run_cons.mpr ⟨_,fails,rfl⟩⟩,outcome_finish⟩
    | Registered =>
      have fails := refuses s r found phase gone
      exact ⟨[.send t],_,_,by simp [is_own],Runs.run_cons.mpr ⟨_,fails,rfl⟩,outcome_finish⟩
    | Sending =>
      obtain ⟨o,sent⟩ := Option.isSome_iff_exists.mp (valid.answered shut running t r found (.inl phase))
      have moves : step default_timeout s (.sent t) = some (s.set t {r with phase := .Waiting}) := by
        simp [step,caller,found,phase]
      have ends := receives (s.set t {r with phase := .Waiting}) {r with phase := .Waiting} o (by simp [State.set]) rfl sent
      exact ⟨[.sent t,.receive t],_,_,by simp [is_own],Runs.run_cons.mpr ⟨_,moves,Runs.run_cons.mpr ⟨_,ends,rfl⟩⟩,outcome_finish⟩
    | Waiting =>
      obtain ⟨o,sent⟩ := Option.isSome_iff_exists.mp (valid.answered shut running t r found (.inr phase))
      have ends := receives s r o found phase sent
      exact ⟨[.receive t],_,_,by simp [is_own],Runs.run_cons.mpr ⟨_,ends,rfl⟩,outcome_finish⟩
    | Done => simp [phase,is_unfinished,is_live] at unfinished
    | Dropped => simp [phase,is_unfinished,is_live] at unfinished

theorem pending_when_closed (valid : Valid s) (shut : s.closed) (listed : s.pending.lookup n = some t) : s.cancelled ∨
      s.transport_closed ∧ ∃ r, s.requests t = some r ∧ r.phase = .Registered := by
  obtain ⟨r,found,live,_,unsent⟩ := valid.listed n t listed
  cases running : s.cancelled with
  | true => exact .inl rfl
  | false =>
    refine .inr ⟨valid.disconnected shut running,r,found,?_⟩
    have answered := valid.answered shut running t r found
    cases phase : r.phase with
    | Registered => rfl
    | Sending | Waiting => simp [phase,unsent] at answered
    | Checked | Done o | Dropped => simp [phase,is_live] at live

theorem start_when_closed {options : RequestOptions}
    (shut : s.closed) (taken : step default_timeout s (.start t options) = some s') :
    s'.outcome t = some (.error .Closed) := by
  simp only [step,shut,if_true] at taken
  split_ifs at taken
  cases taken
  exact outcome_eq_some.mpr ⟨_,Function.update_self ..,rfl⟩

theorem stays_closed (ran : Runs.run (step default_timeout) s more = some s') (shut : s.closed) : s'.closed := by
  refine Runs.invariant (P := fun s => s.closed = true) (fun before a after holds taken => ?_) shut ran
  cases step_effect taken with
  | start | register | send | sent | report | transport_closes => exact holds
  | finish _ r =>
    unfold finish
    cases r.id <;> exact holds
  | deliver =>
    unfold deliver
    split <;> exact holds
  | end_dispatch | stop => rfl

/-- In every run each request gets at most one outcome, and it comes from a
    step of its own caller, a message that bears its number, or the closing;
    a message touches no request but the unanswered one of its number; and a
    closed client refuses new requests and lets every other come to its end. -/
theorem responses_correlate (default_timeout : Option Nat) (actions : List Action) (s : State)
    (ran : run default_timeout actions = some s) :
    (∀ t o more s', s.outcome t = some o → Runs.run (step default_timeout) s more = some s' →
      s'.outcome t = some o) ∧
    (∀ t o, s.outcome t = some o → ∃ before a after mid, actions = before ++ a :: after ∧
      run default_timeout before = some mid ∧ Origin mid t a o) ∧
    (∀ e t s', step default_timeout s (.event e) = some s' → s'.requests t ≠ s.requests t →
      ∃ r n, s.requests t = some r ∧ r.phase.is_live ∧ r.id = some n ∧ r.channel = none ∧
        e.address = some (.Number n) ∧ s'.requests t = some {r with channel := some e.outcome} ∧
        s'.pending.lookup n = none) ∧
    (∀ s', step default_timeout s .stop = some s' ∨ step default_timeout s .end_dispatch = some s' →
      s'.closed ∧ s'.pending = []) ∧
    (s.closed →
      (∀ more s', Runs.run (step default_timeout) s more = some s' → s'.closed) ∧
      (∀ n t, s.pending.lookup n = some t → s.cancelled ∨
        s.transport_closed ∧ ∃ r, s.requests t = some r ∧ r.phase = .Registered) ∧
      (∀ t r, s.requests t = some r → r.phase.is_unfinished →
        ∃ steps s' o, (∀ a ∈ steps, is_own t a) ∧ Runs.run (step default_timeout) s steps = some s' ∧
          s'.outcome t = some o) ∧
      ∀ t options s', step default_timeout s (.start t options) = some s' →
        s'.outcome t = some (.error .Closed)) := by
  have valid := valid_run ran
  refine ⟨fun t o more s' given later => outcome_stays later given,fun t o given => origin_of_outcome ran given,
    ?_,?_,fun shut => ⟨fun more s' later => stays_closed later shut,fun n t listed => pending_when_closed valid shut listed,
      fun t r found unfinished => ends_when_closed valid shut found unfinished,
      fun t options s' taken => start_when_closed shut taken⟩⟩
  · intro e t s' taken changed
    simp only [step] at taken
    split_ifs at taken
    cases taken
    exact event_touches valid e changed
  · rintro s' (taken | taken)
    · cases taken
      exact ⟨rfl,rfl⟩
    · simp only [step] at taken
      split_ifs at taken
      cases taken
      exact ⟨rfl,rfl⟩

/-- A request times out, its response comes late and twice; the next is waiting when the transport closes. -/
def late_and_closed : List Action :=
  [.start 0 ⟨some 5,none⟩,.register 0,.send 0,.sent 0,.timeout 0,.event (.Message (.Response (.Number 1) [])),
    .event (.Message (.Response (.Number 1) [])),.start 1 ⟨none,none⟩,.register 1,.send 1,.sent 1,
    .start 2 ⟨none,none⟩,.transport_closes,.end_dispatch,.register 2,.receive 1]

theorem responses_correlate_late_and_closed : ∃ s, run none late_and_closed = some s ∧ s.closed ∧
    s.outcome 0 = some (.error (.Timeout 5)) ∧ s.outcome 1 = some (.error .Closed) ∧
    ∃ steps s' o, (∀ a ∈ steps, Action.is_own 2 a) ∧ Runs.run (step none) s steps = some s' ∧
      s'.outcome 2 = some o := by
  refine ⟨_,rfl,rfl,by decide,by decide,?_⟩
  exact ((responses_correlate none late_and_closed _ rfl).2.2.2.2 rfl).2.2.1 2 ⟨.Registered,none,some 3,none⟩
    (by decide) (by decide)

/-- Numbers are never reused, and the pending map lists just the requests whose message is yet to come: none is left
behind by a request that has ended. -/
theorem pending_exact (default_timeout : Option Nat) (actions : List Action) (s : State)
    (ran : run default_timeout actions = some s) :
    (∀ t u r q n, s.requests t = some r → s.requests u = some q → r.id = some n → q.id = some n → t = u) ∧
    (∀ n t, s.pending.lookup n = some t ↔
      ∃ r, s.requests t = some r ∧ r.phase.is_live ∧ r.id = some n ∧ r.channel = none) ∧
    ((∀ t r, s.requests t = some r → r.phase.is_live = false) → s.pending = []) := by
  have valid := valid_run ran
  refine ⟨valid.distinct,fun n t => ⟨valid.listed n t,?_⟩,fun ended => ?_⟩
  · rintro ⟨r,found,live,id,unsent⟩
    obtain ⟨m,same,listed⟩ := valid.awaited t r found live unsent
    cases id.symm.trans same
    exact listed
  · rcases waiting : s.pending with _ | ⟨⟨n,t⟩,_⟩
    · rfl
    · obtain ⟨r,found,live,_⟩ := valid.listed n t (by simp [waiting])
      simp [ended t r found] at live

theorem pending_exact_late_and_closed : ∃ s, run none late_and_closed = some s ∧ s.pending.lookup 3 = some 2 :=
  ⟨_,rfl,((pending_exact none late_and_closed _ rfl).2.1 3 2).mpr ⟨⟨.Registered,none,some 3,none⟩,rfl,rfl,rfl,rfl⟩⟩

end Ferrin.Mcp
