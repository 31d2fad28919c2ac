import Ferrin.Library.Assoc
import Ferrin.Library.Runs

/-!
The fan-out of an event stream. Whichever view is polled first pulls the upstream
and copies the event for the others, and the upstream of a tee may be a view of
an earlier one. Every view gets the events from its cursor on, however polls,
new views and drops interleave (`views_receive`).
-/
namespace Ferrin.StreamText.Tee
open List Function Bool Assoc Tee
open Function (update)

/-- `Poll<Option<StreamEvent>>`. -/
inductive Poll (ε : Type) where
  | Pending
  | Ready (item : Option ε)

structure Upstream (ε : Type) where
  polls : Nat
  produced : List ε
  ended : Bool
  dropped : Bool

/-- An `EventStream`: that of the pipeline, or a view, by the number of its tee and its own. -/
inductive Cursor where
  | source
  | view (tee id : Nat)
  deriving DecidableEq

/-- `Shared`. A view is there as long as it has a queue. -/
structure Shared (ε : Type) where
  upstream : Option Cursor
  queues : List (Nat × List ε)

/-- The pipeline's stream and the tees over it, the newest first. Tees are numbered from the oldest. -/
structure Fan (ε : Type) where
  upstream : Upstream ε
  tees : List (Shared ε)

section
variable {ε : Type}

def Upstream.new : Upstream ε := ⟨0,[],false,false⟩

def Upstream.poll (answers : Nat → Poll ε) (u : Upstream ε) : Poll ε × Upstream ε :=
  match answers u.polls with
  | .Pending => (.Pending,{ u with polls := u.polls + 1 })
  | .Ready (some event) =>
    (.Ready (some event),{ u with polls := u.polls + 1,produced := u.produced ++ [event] })
  | .Ready none => (.Ready none,{ u with polls := u.polls + 1,ended := true })

/-- `View::drop`. The last view of a tee takes the upstream with it. -/
def drop : Cursor → Upstream ε → List (Shared ε) → Upstream ε × List (Shared ε)
  | .source, u, tees => ({ u with dropped := true },tees)
  | .view _ _, u, [] => (u,[])
  | .view tee id, u, s :: older =>
    if tee = older.length then
      let queues := Assoc.remove s.queues id
      match queues.isEmpty,s.upstream with
      | true,some upstream =>
        let (u,older) := drop upstream u older
        (u,⟨none,queues⟩ :: older)
      | _,upstream => (u,⟨upstream,queues⟩ :: older)
    else
      let (u,older) := drop (.view tee id) u older
      (u,s :: older)

/-- The queues after an event that view `id` has pulled. -/
def push_others (queues : List (Nat × List ε)) (id : Nat) (event : ε) : List (Nat × List ε) :=
  queues.map fun (other,queue) => (other,if other = id then queue else queue ++ [event])

/-- `View::poll_next`. At its end the upstream is dropped. -/
def poll (answers : Nat → Poll ε) : Cursor → Upstream ε → List (Shared ε) → Poll ε × Upstream ε × List (Shared ε)
  | .source, u, tees =>
    let (answer,u) := u.poll answers
    (answer,u,tees)
  | .view _ _, u, [] => (.Ready none,u,[])
  | .view tee id, u, s :: older =>
    if tee = older.length then
      match s.queues.lookup id,s.upstream with
      | some (event :: queue),_ => (.Ready (some event),u,{ s with queues := Assoc.put s.queues id queue } :: older)
      | _,none => (.Ready none,u,s :: older)
      | _,some upstream =>
        match poll answers upstream u older with
        | (.Ready (some event),u,older) =>
          (.Ready (some event),u,{ s with queues := push_others s.queues id event } :: older)
        | (.Ready none,u,older) =>
          let (u,older) := drop upstream u older
          (.Ready none,u,{ s with upstream := none } :: older)
        | (.Pending,u,older) => (.Pending,u,s :: older)
    else
      let (answer,u,older) := poll answers (.view tee id) u older
      (answer,u,s :: older)

/-- `tee`: two views over a stream. -/
def tee (upstream : Cursor) (tees : List (Shared ε)) : (Cursor × Cursor) × List (Shared ε) :=
  ((.view tees.length 0,.view tees.length 1),⟨some upstream,[(0,[]),(1,[])]⟩ :: tees)

/-! ### What belongs to the caller -/

def held (u : Upstream ε) : List (Shared ε) → Cursor → Bool
  | [], .source => !u.dropped
  | [], .view _ _ => false
  | s :: older, .source => held u older .source && s.upstream ≠ some .source
  | s :: older, .view tee id =>
    if tee = older.length then (s.queues.lookup id).isSome
    else held u older (.view tee id) && s.upstream ≠ some (.view tee id)

/-- What a stream still has to give of the events that were produced. -/
def owed : List (Shared ε) → Cursor → List ε
  | [], _ => []
  | _ :: older, .source => owed older .source
  | s :: older, .view tee id =>
    if tee = older.length then (s.queues.lookup id).getD [] ++ (s.upstream.map (owed older)).getD []
    else owed older (.view tee id)

/-- Every tee reads a stream of its own, unless the pipeline's stream has ended or the tee has no views. -/
def Valid (u : Upstream ε) : List (Shared ε) → Prop
  | [] => True
  | s :: older => Valid u older ∧ (∀ upstream, s.upstream = some upstream → held u older upstream = true) ∧
      (s.upstream = none → u.ended = true ∨ s.queues = [])

variable {answers : Nat → Poll ε} {u : Upstream ε} {tees older : List (Shared ε)} {s : Shared ε} {c k : Cursor}

@[simp] theorem owed_source (tees : List (Shared ε)) : owed tees .source = [] := by
  induction tees with
  | nil => rfl
  | cons _ _ ih => exact ih

variable {id : Nat} {u' : Upstream ε} {older' : List (Shared ε)} {up : Cursor}

theorem held_own : held u (s :: older) (.view older.length id) = (s.queues.lookup id).isSome := by
  simp [held]

theorem held_older (other : ∀ id, k ≠ .view older.length id) :
    held u (s :: older) k = (held u older k && s.upstream ≠ some k) := by
  cases k with
  | source => rfl
  | view tee id =>
    have differs : tee ≠ older.length := fun same => other id (same ▸ rfl)
    simp [held,differs]

theorem owed_own : owed (s :: older) (.view older.length id) =
    (s.queues.lookup id).getD [] ++ (s.upstream.map (owed older)).getD [] := by
  simp [owed]

theorem owed_older (other : ∀ id, k ≠ .view older.length id) : owed (s :: older) k = owed older k := by
  cases k with
  | source => rfl
  | view tee id =>
    have differs : tee ≠ older.length := fun same => other id (same ▸ rfl)
    simp [owed,differs]

theorem own_or_older (older : List (Shared ε)) (k : Cursor) :
    (∃ id, k = .view older.length id) ∨ ∀ id, k ≠ .view older.length id := by
  cases k with
  | source => exact .inr fun id same => by cases same
  | view tee id =>
    by_cases same : tee = older.length
    · exact .inl ⟨id,by rw [same]⟩
    · exact .inr fun id same' => same (by cases same'; rfl)

theorem source_alone (valid : Valid u tees) (running : u.ended = false) (free : held u tees .source = true)
    (isHeld : held u tees k = true) : k = .source := by
  induction tees generalizing k with
  | nil =>
    cases k with
    | source => rfl
    | view => cases isHeld
  | cons s older ih =>
    obtain ⟨valid,upstream,idle⟩ := valid
    rw [held_older (by simp),and_eq_true,decide_eq_true_eq] at free
    have cut : s.upstream = none := by
      by_contra reads
      obtain ⟨up,there⟩ := Option.ne_none_iff_exists'.mp reads
      rw [ih valid free.1 (upstream up there)] at there
      exact free.2 there
    rcases own_or_older older k with ⟨_,rfl⟩ | other
    · have gone := (idle cut).resolve_left (by simp [running])
      rw [held_own,gone] at isHeld
      cases isHeld
    · rw [held_older other,and_eq_true] at isHeld
      exact ih valid free.1 isHeld.1

/-- Dropping a stream takes it from the caller and changes nothing else of what the caller has. -/
structure Dropped (u : Upstream ε) (tees : List (Shared ε)) (c : Cursor) (after : Upstream ε × List (Shared ε)) :
    Prop where
  valid : Valid after.1 after.2
  length : after.2.length = tees.length
  holds : ∀ k, held after.1 after.2 k = (held u tees k && k ≠ c)
  owes : ∀ k, held u tees k = true → k ≠ c → owed after.2 k = owed tees k
  upstream : ∃ dropped, after.1 = { u with dropped } ∧ (u.dropped = true ∨ c = .source → dropped = true)

theorem drop_source (valid : Valid u tees) (isHeld : held u tees .source = true) :
    Dropped u tees .source ({ u with dropped := true },tees) := by
  induction tees with
  | nil =>
    refine ⟨trivial,rfl,?_,fun _ _ _ => rfl,true,rfl,fun _ => rfl⟩
    rintro (_ | ⟨_,id⟩) <;> simp [held]
  | cons s older ih =>
    obtain ⟨valid,upstream,idle⟩ := valid
    rw [held_older (by simp),and_eq_true,decide_eq_true_eq] at isHeld
    obtain ⟨valid,-,holds,-,-⟩ := ih valid isHeld.1
    refine ⟨⟨valid,?_,idle⟩,rfl,?_,fun _ _ _ => rfl,true,rfl,fun _ => rfl⟩
    · intro up there
      have differs : up ≠ .source := fun same => isHeld.2 (same ▸ there)
      rw [holds]
      simp [upstream up there,differs]
    · intro k
      rcases own_or_older older k with ⟨_,rfl⟩ | other
      · simp [held_own]
      · rw [held_older other,held_older other,holds]
        simp only [Bool.and_right_comm]

theorem drop_spec (tees : List (Shared ε)) : ∀ {c : Cursor}, Valid u tees → held u tees c = true →
    Dropped u tees c (drop c u tees) := by
  induction tees with
  | nil =>
    intro c valid isHeld
    cases c with
    | source => exact drop_source valid isHeld
    | view => cases isHeld
  | cons s older ih =>
    intro c valid isHeld
    have whole := valid
    obtain ⟨valid,upstream,idle⟩ := valid
    rcases own_or_older older c with ⟨id,rfl⟩ | other
    · have lookups : ∀ own, (remove s.queues id).lookup own = if own = id then none else s.queues.lookup own :=
        lookup_remove s.queues id
      by_cases freed : (remove s.queues id).isEmpty = true ∧ s.upstream ≠ none
      · obtain ⟨last,reads⟩ := freed
        obtain ⟨up,there⟩ := Option.ne_none_iff_exists'.mp reads
        have alone : ∀ own, own ≠ id → s.queues.lookup own = none := by
          intro own differs
          have nothing := lookups own
          rw [List.isEmpty_iff.mp last,if_neg differs] at nothing
          exact nothing.symm
        obtain ⟨after,length,holds,owes,dropped,ended,gone⟩ := ih valid (upstream up there)
        have next : drop (.view older.length id) u (s :: older) =
            ((drop up u older).1,⟨none,remove s.queues id⟩ :: (drop up u older).2) := by
          simp [drop,last,there]
        rw [next]
        refine ⟨⟨after,by simp,fun _ => .inr (List.isEmpty_iff.mp last)⟩,by simp [length],?_,?_,dropped,ended,?_⟩
        · intro k
          rcases own_or_older older k with ⟨own,rfl⟩ | other
          · rw [← length,held_own,length,held_own,lookups]
            by_cases same : own = id <;> simp [same,alone]
          · rw [held_older (by rwa [length]),held_older other,holds,there]
            simp [other id,eq_comm]
        · intro k isHeld apart
          rcases own_or_older older k with ⟨own,rfl⟩ | other
          · have differs : own ≠ id := fun same => apart (same ▸ rfl)
            rw [held_own,alone own differs] at isHeld
            cases isHeld
          · rw [held_older other,and_eq_true,decide_eq_true_eq,there] at isHeld
            rw [owed_older (by rwa [length]),owed_older other]
            exact owes k isHeld.1 fun same => isHeld.2 (same ▸ rfl)
        · rintro (was | same)
          · exact gone (.inl was)
          · cases same
      · have next : drop (.view older.length id) u (s :: older) = (u,⟨s.upstream,remove s.queues id⟩ :: older) := by
          cases last : (remove s.queues id).isEmpty <;> cases reads : s.upstream <;> simp_all [drop]
        rw [next]
        refine ⟨⟨valid,upstream,?_⟩,rfl,?_,?_,u.dropped,rfl,?_⟩
        · intro cut
          exact (idle cut).imp_right fun none => by simp [none,remove]
        · intro k
          rcases own_or_older older k with ⟨own,rfl⟩ | other
          · rw [held_own,held_own,lookups]
            by_cases same : own = id <;> simp [same]
          · rw [held_older other,held_older other]
            simp [other id]
        · intro k isHeld apart
          rcases own_or_older older k with ⟨own,rfl⟩ | other
          · have differs : own ≠ id := fun same => apart (same ▸ rfl)
            rw [owed_own,owed_own,lookups,if_neg differs]
          · rw [owed_older other,owed_older other]
        · rintro (gone | same)
          · exact gone
          · cases same
    · cases c with
      | source => exact drop_source whole isHeld
      | view tee id =>
        rw [held_older other,and_eq_true,decide_eq_true_eq] at isHeld
        have differs : tee ≠ older.length := fun same => other id (same ▸ rfl)
        obtain ⟨after,length,holds,owes,dropped,ended,gone⟩ := ih valid isHeld.1
        have next : drop (.view tee id) u (s :: older) =
            ((drop (.view tee id) u older).1,s :: (drop (.view tee id) u older).2) := by simp [drop,differs]
        rw [next]
        refine ⟨⟨after,?_,?_⟩,by simp [length],?_,?_,dropped,ended,gone⟩
        · intro up there
          have differs : up ≠ .view tee id := fun same => isHeld.2 (same ▸ there)
          rw [holds]
          simp [upstream up there,differs]
        · rw [ended]
          exact idle
        · intro k
          rcases own_or_older older k with ⟨own,rfl⟩ | older_k
          · rw [← length,held_own,length,held_own]
            have apart : Cursor.view older.length own ≠ .view tee id := fun same => differs (by cases same; rfl)
            simp [apart]
          · rw [held_older (by rwa [length]),held_older older_k,holds]
            simp only [Bool.and_right_comm]
        · intro k isHeld' apart
          rcases own_or_older older k with ⟨_,rfl⟩ | older_k
          · rw [← length,owed_own,length,owed_own]
            cases there : s.upstream with
            | none => rfl
            | some up =>
              have differs : up ≠ .view tee id := fun same => isHeld.2 (same ▸ there)
              simp [owes up (upstream up there) differs]
          · rw [held_older older_k,and_eq_true] at isHeld'
            rw [owed_older (by rwa [length]),owed_older older_k]
            exact owes k isHeld'.1 apart

/-- What a poll leaves as it is. -/
structure Frame (u : Upstream ε) (tees : List (Shared ε)) (c : Cursor) (u' : Upstream ε) (tees' : List (Shared ε)) :
    Prop where
  valid : Valid u' tees'
  length : tees'.length = tees.length
  holds : ∀ k, held u' tees' k = held u tees k
  released : c ≠ .source → u'.ended = true → u'.dropped = true

inductive Polled (answers : Nat → Poll ε) (u : Upstream ε) (tees : List (Shared ε)) (c : Cursor) :
    Poll ε × Upstream ε × List (Shared ε) → Prop where
  | queued {event : ε} {tees' : List (Shared ε)} (frame : Frame u tees c u tees')
      (first : owed tees c = event :: owed tees' c)
      (others : ∀ k, held u tees k = true → k ≠ c → owed tees' k = owed tees k) :
      Polled answers u tees c (.Ready (some event),u,tees')
  | pulled {event : ε} {tees' : List (Shared ε)} (answer : answers u.polls = .Ready (some event))
      (running : u.ended = false)
      (frame : Frame u tees c { u with polls := u.polls + 1,produced := u.produced ++ [event] } tees')
      (nothing : owed tees c = []) (still : owed tees' c = [])
      (others : ∀ k, held u tees k = true → k ≠ c → owed tees' k = owed tees k ++ [event]) :
      Polled answers u tees c
        (.Ready (some event),{ u with polls := u.polls + 1,produced := u.produced ++ [event] },tees')
  | pending (answer : answers u.polls = .Pending) (running : u.ended = false)
      (frame : Frame u tees c { u with polls := u.polls + 1 } tees) (nothing : owed tees c = []) :
      Polled answers u tees c (.Pending,{ u with polls := u.polls + 1 },tees)
  | ended {u' : Upstream ε} {tees' : List (Shared ε)} (frame : Frame u tees c u' tees') (nothing : owed tees c = [])
      (others : ∀ k, held u tees k = true → owed tees' k = owed tees k) (spent : u'.ended = true)
      (produced : u'.produced = u.produced) (answer : u.ended = false → answers u.polls = .Ready none) :
      Polled answers u tees c (.Ready none,u',tees')

theorem Valid.congr (valid : Valid u tees) (u' : Upstream ε) (ended : u.ended = true → u'.ended = true)
    (dropped : u'.dropped = u.dropped) : Valid u' tees ∧ ∀ k, held u' tees k = held u tees k := by
  induction tees with
  | nil =>
    refine ⟨trivial,?_⟩
    rintro (_ | ⟨_,id⟩) <;> simp [held,dropped]
  | cons s older ih =>
    obtain ⟨valid,upstream,idle⟩ := valid
    obtain ⟨valid',holds⟩ := ih valid
    refine ⟨⟨valid',fun up there => by rw [holds]; exact upstream up there,fun cut => (idle cut).imp_left ended⟩,?_⟩
    intro k
    rcases own_or_older older k with ⟨_,rfl⟩ | other
    · rw [held_own,held_own]
    · rw [held_older other,held_older other,holds]

theorem poll_source (valid : Valid u tees) (isHeld : held u tees .source = true) (spent : u.ended = true → u.dropped = true) :
    Polled answers u tees .source (poll answers .source u tees) := by
  have there : u.dropped = false := by
    clear spent
    induction tees with
    | nil => simpa [held] using isHeld
    | cons _ _ ih =>
      rw [held_older (by simp),and_eq_true] at isHeld
      exact ih valid.1 isHeld.1
  have running : u.ended = false := by
    by_contra ended
    rw [spent (by simpa using ended)] at there
    cases there
  have alone : ∀ k, held u tees k = true → k ≠ .source → False :=
    fun k isHeld' apart => apart (source_alone valid running isHeld isHeld')
  unfold poll Upstream.poll
  cases answer : answers u.polls with
  | Pending =>
    obtain ⟨valid',holds⟩ := valid.congr { u with polls := u.polls + 1 } id rfl
    exact .pending answer running ⟨valid',rfl,holds,by simp⟩ (owed_source tees)
  | Ready item =>
    cases item with
    | some event =>
      obtain ⟨valid',holds⟩ := valid.congr { u with polls := u.polls + 1,produced := u.produced ++ [event] } id rfl
      exact .pulled answer running ⟨valid',rfl,holds,by simp⟩ (owed_source tees) (owed_source tees)
        fun k isHeld' apart => (alone k isHeld' apart).elim
    | none =>
      obtain ⟨valid',holds⟩ := valid.congr { u with polls := u.polls + 1,ended := true } (fun _ => rfl) rfl
      exact .ended ⟨valid',rfl,holds,by simp⟩ (owed_source tees) (fun _ _ => rfl) rfl rfl fun _ => answer

theorem lookup_push_others (queues : List (Nat × List ε)) (id own : Nat) (event : ε) :
    (push_others queues id event).lookup own =
      (queues.lookup own).map fun queue => if own = id then queue else queue ++ [event] := by
  induction queues with
  | nil => rfl
  | cons entry _ ih =>
    obtain ⟨other,_⟩ := entry
    rw [push_others] at ih
    rw [push_others,map_cons,lookup_cons,lookup_cons,ih]
    cases here : own == other with
    | true =>
      obtain rfl : own = other := by simpa using here
      rfl
    | false => rfl

theorem Frame.own (reads : s.upstream = some up) (isHeld : held u older up = true)
    (frame : Frame u older up u' older') (queues : List (Nat × List ε))
    (same : ∀ own, (queues.lookup own).isSome = (s.queues.lookup own).isSome) (spent : u'.ended = true → u'.dropped = true) :
    Frame u (s :: older) (.view older.length id) u' ({ s with queues } :: older') := by
  obtain ⟨valid,length,holds,-⟩ := frame
  refine ⟨⟨valid,?_,?_⟩,by simp [length],?_,fun _ => spent⟩
  · intro up' there
    obtain rfl : up = up' := Option.some.inj (reads.symm.trans there)
    rw [holds]
    exact isHeld
  · intro cut
    rw [reads] at cut
    cases cut
  · intro k
    rcases own_or_older older k with ⟨own,rfl⟩ | other
    · rw [← length,held_own,length,held_own]
      exact same own
    · rw [held_older (by rwa [length]),held_older other,holds]

theorem owed_pushed (length : older'.length = older.length)
    (reads : s.upstream = some up) (id own : Nat) (event : ε) :
    owed ({ s with queues := push_others s.queues id event } :: older') (.view older.length own) =
      ((s.queues.lookup own).map fun queue => if own = id then queue else queue ++ [event]).getD [] ++ owed older' up := by
  rw [← length,owed_own,lookup_push_others]
  simp [reads]

theorem poll_own (valid : Valid u (s :: older)) (isHeld : held u (s :: older) (.view older.length id) = true)
    (spent : u.ended = true → u.dropped = true)
    (ih : ∀ {c : Cursor}, held u older c = true → Polled answers u older c (poll answers c u older)) :
    Polled answers u (s :: older) (.view older.length id) (poll answers (.view older.length id) u (s :: older)) := by
  obtain ⟨valid,upstream,idle⟩ := valid
  rw [held_own,Option.isSome_iff_exists] at isHeld
  obtain ⟨queue,lookup⟩ := isHeld
  have busy : s.queues ≠ [] := fun none => by simp [none] at lookup
  cases queue with
  | cons event queue =>
    have next : poll answers (.view older.length id) u (s :: older) =
        (.Ready (some event),u,{ s with queues := put s.queues id queue } :: older) := by
      cases reads : s.upstream <;> simp [poll,lookup,reads]
    have lookups : ∀ own, (put s.queues id queue).lookup own = if own = id then some queue else s.queues.lookup own :=
      lookup_put s.queues id queue
    rw [next]
    refine .queued ⟨⟨valid,upstream,fun cut => .inl ((idle cut).resolve_right busy)⟩,rfl,?_,fun _ => spent⟩ ?_ ?_
    · intro k
      rcases own_or_older older k with ⟨own,rfl⟩ | other
      · rw [held_own,held_own,lookups]
        by_cases same : own = id <;> simp [same,lookup]
      · rw [held_older other,held_older other]
    · rw [owed_own,owed_own,lookups,lookup]
      simp
    · intro k _ apart
      rcases own_or_older older k with ⟨own,rfl⟩ | other
      · have differs : own ≠ id := fun same => apart (same ▸ rfl)
        rw [owed_own,owed_own,lookups,if_neg differs]
      · rw [owed_older other,owed_older other]
  | nil =>
    cases reads : s.upstream with
    | none =>
      have next : poll answers (.view older.length id) u (s :: older) = (.Ready none,u,s :: older) := by
        simp [poll,lookup,reads]
      have ended := (idle reads).resolve_right busy
      rw [next]
      refine .ended ⟨⟨valid,upstream,idle⟩,rfl,fun _ => rfl,fun _ => spent⟩ ?_ (fun _ _ => rfl) ended rfl ?_
      · simp [owed_own,lookup,reads]
      · intro running
        rw [running] at ended
        cases ended
    | some up =>
      have free := upstream up reads
      have next : poll answers (.view older.length id) u (s :: older) =
          match poll answers up u older with
          | (.Ready (some event),u,older) =>
            (.Ready (some event),u,{ s with queues := push_others s.queues id event } :: older)
          | (.Ready none,u,older) =>
            (.Ready none,(drop up u older).1,{ s with upstream := none } :: (drop up u older).2)
          | (.Pending,u,older) => (.Pending,u,s :: older) := by
        simp only [poll,lookup,reads]
        rfl
      have polled := ih free
      have pushed : ∀ event own, ((push_others s.queues id event).lookup own).isSome = (s.queues.lookup own).isSome := by
        intro event own
        simp [lookup_push_others]
      have own_owed : owed (s :: older) (.view older.length id) = owed older up := by
        simp [owed_own,lookup,reads]
      rw [next]
      generalize poll answers up u older = outcome at polled
      cases polled with
      | @queued event older' frame first others =>
        refine .queued (frame.own reads free _ (pushed event) spent) ?_ ?_
        · rw [own_owed,first,owed_pushed frame.length reads,lookup]
          simp
        · intro k isHeld apart
          rcases own_or_older older k with ⟨own,rfl⟩ | other
          · have differs : own ≠ id := fun same => apart (same ▸ rfl)
            rw [held_own,Option.isSome_iff_exists] at isHeld
            obtain ⟨queue,there⟩ := isHeld
            rw [owed_pushed frame.length reads,owed_own,there,reads]
            simp [differs,first]
          · rw [held_older other,and_eq_true,decide_eq_true_eq,reads] at isHeld
            rw [owed_older (by rwa [frame.length]),owed_older other]
            exact others k isHeld.1 fun same => isHeld.2 (same ▸ rfl)
      | @pulled event older' answer running frame nothing still others =>
        refine .pulled answer running (frame.own reads free _ (pushed event) (by simp [running])) ?_ ?_ ?_
        · rw [own_owed,nothing]
        · rw [owed_pushed frame.length reads,lookup,still]
          simp
        · intro k isHeld apart
          rcases own_or_older older k with ⟨own,rfl⟩ | other
          · have differs : own ≠ id := fun same => apart (same ▸ rfl)
            rw [held_own,Option.isSome_iff_exists] at isHeld
            obtain ⟨_,there⟩ := isHeld
            rw [owed_pushed frame.length reads,owed_own,there,reads]
            simp [differs,nothing,still]
          · rw [held_older other,and_eq_true,decide_eq_true_eq,reads] at isHeld
            rw [owed_older (by rwa [frame.length]),owed_older other]
            exact others k isHeld.1 fun same => isHeld.2 (same ▸ rfl)
      | pending answer running frame nothing =>
        exact .pending answer running (frame.own reads free s.queues (fun _ => rfl) (by simp [running]))
          (by rw [own_owed,nothing])
      | @ended u' older' frame nothing others ended produced answer =>
        obtain ⟨after,length,holds,owes,_,ended',gone⟩ := drop_spec older' frame.valid (by rwa [frame.holds])
        refine .ended ⟨⟨after,by simp,fun _ => .inl (by simp [ended',ended])⟩,?_,?_,?_⟩ ?_ ?_ (by simp [ended',ended])
          (by simp [ended',produced]) answer
        · simp [length,frame.length]
        · intro k
          rcases own_or_older older k with ⟨own,rfl⟩ | other
          · rw [← frame.length,← length,held_own,length,frame.length,held_own]
          · rw [held_older (by rwa [length,frame.length]),held_older other,holds,frame.holds,reads]
            simp [eq_comm]
        · intro _ _
          rw [ended']
          refine gone ?_
          by_cases same : up = .source
          · exact .inr same
          · exact .inl (frame.released same ended)
        · rw [own_owed,nothing]
        · intro k isHeld
          rcases own_or_older older k with ⟨_,rfl⟩ | other
          · rw [← frame.length,← length,owed_own,length,frame.length,owed_own,reads]
            simp [nothing]
          · rw [held_older other,and_eq_true,decide_eq_true_eq,reads] at isHeld
            rw [owed_older (by rwa [length,frame.length]),owed_older other,← others k isHeld.1]
            exact owes k (by rw [frame.holds]; exact isHeld.1) fun same => isHeld.2 (same ▸ rfl)

theorem Frame.beneath (valid : Valid u (s :: older))
    (frame : Frame u older c u' older') (ended : u.ended = true → u'.ended = true) :
    Frame u (s :: older) c u' (s :: older') := by
  obtain ⟨-,upstream,idle⟩ := valid
  obtain ⟨valid,length,holds,released⟩ := frame
  refine ⟨⟨valid,fun up there => by rw [holds]; exact upstream up there,fun cut => (idle cut).imp_left ended⟩,
    by simp [length],?_,released⟩
  intro k
  rcases own_or_older older k with ⟨_,rfl⟩ | other
  · rw [← length,held_own,length,held_own]
  · rw [held_older (by rwa [length]),held_older other,holds]

theorem owed_under (added : List ε) (valid : Valid u (s :: older))
    (free : s.upstream ≠ some c) (length : older'.length = older.length) (running : added ≠ [] → u.ended = false)
    (others : ∀ k, held u older k = true → k ≠ c → owed older' k = owed older k ++ added)
    (isHeld : held u (s :: older) k = true) (apart : k ≠ c) :
    owed (s :: older') k = owed (s :: older) k ++ added := by
  obtain ⟨-,upstream,idle⟩ := valid
  rcases own_or_older older k with ⟨_,rfl⟩ | other
  · rw [← length,owed_own,length,owed_own]
    cases reads : s.upstream with
    | none =>
      have nothing : added = [] := by
        by_contra more
        have gone := (idle reads).resolve_left (by simp [running more])
        rw [held_own,gone] at isHeld
        cases isHeld
      simp [nothing]
    | some up =>
      have differs : up ≠ c := fun same => free (same ▸ reads)
      simp [others up (upstream up reads) differs]
  · rw [held_older other,and_eq_true] at isHeld
    rw [owed_older (by rwa [length]),owed_older other]
    exact others k isHeld.1 apart

theorem poll_spec (answers : Nat → Poll ε) (tees : List (Shared ε)) : ∀ {c : Cursor}, Valid u tees → (u.ended = true → u.dropped = true) →
    held u tees c = true → Polled answers u tees c (poll answers c u tees) := by
  induction tees with
  | nil =>
    intro c valid spent isHeld
    cases c with
    | source => exact poll_source valid isHeld spent
    | view => cases isHeld
  | cons s older ih =>
    intro c valid spent isHeld
    rcases own_or_older older c with ⟨id,rfl⟩ | other
    · exact poll_own valid isHeld spent fun older_held => ih valid.1 spent older_held
    · cases c with
      | source => exact poll_source valid isHeld spent
      | view tee id =>
        have differs : tee ≠ older.length := fun same => other id (same ▸ rfl)
        have next : poll answers (.view tee id) u (s :: older) =
            ((poll answers (.view tee id) u older).1,(poll answers (.view tee id) u older).2.1,
              s :: (poll answers (.view tee id) u older).2.2) := by simp [poll,differs]
        rw [held_older other,and_eq_true,decide_eq_true_eq] at isHeld
        have polled := ih valid.1 spent isHeld.1
        rw [next]
        generalize poll answers (.view tee id) u older = outcome at polled
        cases polled with
        | queued frame first others =>
          refine .queued (frame.beneath valid fun same => same) ?_ ?_
          · rw [owed_older other,first,owed_older (by rwa [frame.length])]
          · intro k isHeld' apart
            have same := owed_under [] valid isHeld.2 frame.length (by simp) (by simpa using others) isHeld' apart
            simpa using same
        | pulled answer running frame nothing still others =>
          refine .pulled answer running (frame.beneath valid fun same => same) ?_ ?_ ?_
          · rw [owed_older other,nothing]
          · rw [owed_older (by rwa [frame.length]),still]
          · exact fun k => owed_under _ valid isHeld.2 frame.length (fun _ => running) others
        | pending answer running frame nothing =>
          exact .pending answer running (frame.beneath valid fun same => same) (by rw [owed_older other,nothing])
        | ended frame nothing others spent' produced answer =>
          refine .ended (frame.beneath valid fun _ => spent') ?_ ?_ spent' produced answer
          · rw [owed_older other,nothing]
          · intro k isHeld'
            by_cases apart : k = .view tee id
            · rw [apart] at isHeld' ⊢
              rw [owed_older (by rwa [frame.length]),owed_older other]
              exact others _ isHeld.1
            · have same := owed_under [] valid isHeld.2 frame.length (by simp)
                (fun k isHeld _ => by simpa using others k isHeld) isHeld' apart
              simpa using same

/-! ### Runs -/

/-- The streams of a call, with a record of each: the event it starts with, and what it has given. -/
structure Views (ε : Type) where
  upstream : Upstream ε
  tees : List (Shared ε)
  start : Cursor → Nat
  got : Cursor → List ε

/-- What callers do. `full_stream` and `split` tee a stream; one view is handed out and the other one takes the
    place of the stream. -/
inductive Action where
  | poll (tee id : Nat)
  | tee (stream : Cursor)
  | drop (stream : Cursor)

namespace Views

def new : Views ε := ⟨.new,[],fun _ => 0,fun _ => []⟩

/-- The event at which a stream stands. -/
def cursor (s : Views ε) (k : Cursor) : Nat := s.start k + (s.got k).length

/-- Only a stream that the caller has can be used. A new view starts where the stream that it is made from stands. -/
def step (answers : Nat → Poll ε) (s : Views ε) : Action → Option (Views ε)
  | .poll tee id =>
    if held s.upstream s.tees (.view tee id) then
      let (answer,upstream,tees) := Tee.poll answers (.view tee id) s.upstream s.tees
      let got := match answer with
        | .Ready (some event) => update s.got (.view tee id) (s.got (.view tee id) ++ [event])
        | _ => s.got
      some { s with upstream,tees,got }
    else none
  | .tee stream =>
    if held s.upstream s.tees stream then
      let ((first,second),tees) := Tee.tee stream s.tees
      let start := update (update s.start first (s.cursor stream)) second (s.cursor stream)
      let got := update (update s.got first []) second []
      some { s with tees,start,got }
    else none
  | .drop stream =>
    if held s.upstream s.tees stream then
      let (upstream,tees) := Tee.drop stream s.upstream s.tees
      some { s with upstream,tees }
    else none

/-- Every stream of the caller has given, or still owes, the events from its start on. -/
structure Sound (s : Views ε) : Prop where
  valid : Valid s.upstream s.tees
  released : s.upstream.ended = true → s.upstream.dropped = true
  within : ∀ k, held s.upstream s.tees k = true → s.start k ≤ s.upstream.produced.length
  receives : ∀ k, held s.upstream s.tees k = true →
    s.got k ++ owed s.tees k = s.upstream.produced.drop (s.start k)

theorem sound_new : (new : Views ε).Sound where
  valid := trivial
  released := by
    intro ended
    cases ended
  within := fun _ _ => Nat.zero_le _
  receives := fun _ _ => rfl

variable {s s' : Views ε} {stream : Cursor}

theorem Sound.poll {tee : Nat} (sound : s.Sound) (stepped : s.step answers (.poll tee id) = some s') : s'.Sound := by
  obtain ⟨valid,released,within,receives⟩ := sound
  simp only [step] at stepped
  split at stepped
  case isFalse => cases stepped
  case isTrue isHeld =>
    have polled := poll_spec answers s.tees valid released isHeld
    generalize Tee.poll answers (.view tee id) s.upstream s.tees = outcome at polled stepped
    cases polled with
    | queued frame first others =>
      cases stepped
      refine ⟨frame.valid,frame.released (by simp),?_,?_⟩
      · intro k isHeld'
        exact within k (frame.holds k ▸ isHeld')
      · intro k isHeld'
        have given := receives k (frame.holds k ▸ isHeld')
        by_cases same : k = .view tee id
        · subst same
          rw [← given,first]
          simp
        · simp only [update_of_ne same]
          rw [others k (frame.holds k ▸ isHeld') same]
          exact given
    | pulled _ _ frame nothing still others =>
      cases stepped
      refine ⟨frame.valid,frame.released (by simp),?_,?_⟩
      · intro k isHeld'
        have before := within k (frame.holds k ▸ isHeld')
        simp only [length_append]
        omega
      · intro k isHeld'
        have given := receives k (frame.holds k ▸ isHeld')
        simp only [drop_append_of_le_length (within k (frame.holds k ▸ isHeld')),← given]
        by_cases same : k = .view tee id
        · subst same
          simp [nothing,still]
        · simp only [update_of_ne same]
          rw [others k (frame.holds k ▸ isHeld') same,append_assoc]
    | pending _ _ frame =>
      cases stepped
      exact ⟨frame.valid,frame.released (by simp),fun k isHeld' => within k (frame.holds k ▸ isHeld'),
        fun k isHeld' => receives k (frame.holds k ▸ isHeld')⟩
    | ended frame _ others _ produced =>
      cases stepped
      refine ⟨frame.valid,frame.released (by simp),?_,?_⟩
      · intro k isHeld'
        simp only [produced]
        exact within k (frame.holds k ▸ isHeld')
      · intro k isHeld'
        simp only [produced]
        rw [others k (frame.holds k ▸ isHeld')]
        exact receives k (frame.holds k ▸ isHeld')

theorem Sound.drop (sound : s.Sound) (stepped : s.step answers (.drop stream) = some s') : s'.Sound := by
  obtain ⟨valid,released,within,receives⟩ := sound
  simp only [step] at stepped
  split at stepped
  case isFalse => cases stepped
  case isTrue isHeld =>
    obtain ⟨after,_,holds,owes,_,ended,gone⟩ := drop_spec s.tees valid isHeld
    cases stepped
    have before : ∀ k, held (drop stream s.upstream s.tees).1 (drop stream s.upstream s.tees).2 k = true →
        held s.upstream s.tees k = true ∧ k ≠ stream := by
      intro k isHeld'
      simpa [holds] using isHeld'
    refine ⟨after,?_,?_,?_⟩
    · simp only [ended]
      exact fun spent => gone (.inl (released spent))
    · intro k isHeld'
      simp only [ended]
      exact within k (before k isHeld').1
    · intro k isHeld'
      simp only [ended]
      rw [owes k (before k isHeld').1 (before k isHeld').2]
      exact receives k (before k isHeld').1

theorem Sound.tee (sound : s.Sound) (stepped : s.step answers (.tee stream) = some s') : s'.Sound := by
  obtain ⟨valid,released,within,receives⟩ := sound
  simp only [step] at stepped
  split at stepped
  case isFalse => cases stepped
  case isTrue isHeld =>
    cases stepped
    have stands := receives stream isHeld
    have length := congrArg List.length stands
    have bound := within stream isHeld
    rw [length_append,length_drop] at length
    have rest : owed s.tees stream = s.upstream.produced.drop (s.cursor stream) := by
      rw [cursor,← drop_drop,← stands,drop_left]
    have apart : Cursor.view s.tees.length 0 ≠ .view s.tees.length 1 := by simp
    have free : ∀ k, held s.upstream (⟨some stream,[(0,[]),(1,[])]⟩ :: s.tees) k = true →
        k = .view s.tees.length 0 ∨ k = .view s.tees.length 1 ∨
          held s.upstream s.tees k = true ∧ ∀ id, k ≠ .view s.tees.length id := by
      intro k isHeld'
      rcases own_or_older s.tees k with ⟨id,rfl⟩ | other
      · rw [held_own] at isHeld'
        match id with
        | 0 => exact .inl rfl
        | 1 => exact .inr (.inl rfl)
        | id + 2 => simp [lookup_cons] at isHeld'
      · rw [held_older other,and_eq_true] at isHeld'
        exact .inr (.inr ⟨isHeld'.1,other⟩)
    refine ⟨⟨valid,?_,?_⟩,released,?_,?_⟩
    · intro upstream there
      cases there
      exact isHeld
    · intro cut
      cases cut
    · intro k isHeld'
      rcases free k isHeld' with rfl | rfl | ⟨before,other⟩
      · simp only [tee,update_of_ne apart,update_self,cursor]
        omega
      · simp only [tee,update_self,cursor]
        omega
      · simp only [tee,update_of_ne (other 0),update_of_ne (other 1)]
        exact within k before
    · intro k isHeld'
      rcases free k isHeld' with rfl | rfl | ⟨before,other⟩
      · simp only [tee,update_of_ne apart,update_self,owed_own]
        simp [rest]
      · simp only [tee,update_self,owed_own]
        simp [rest,lookup_cons]
      · simp only [tee,update_of_ne (other 0),update_of_ne (other 1)]
        rw [owed_older other]
        exact receives k before

theorem Sound.step {action : Action} (sound : s.Sound) (stepped : s.step answers action = some s') : s'.Sound := by
  cases action with
  | poll => exact sound.poll stepped
  | tee => exact sound.tee stepped
  | drop => exact sound.drop stepped

end Views

/-- However polls, new views and drops interleave: what a view has given and what it still owes are the events from
    its start on; a poll gives what is owed first, then what the pipeline gives; and it reports the end only when the
    pipeline has ended and nothing is owed. -/
theorem views_receive (answers : Nat → Poll ε) (actions : List Action) (s : Views ε)
    (ran : Runs.run (Views.step answers) .new actions = some s) (tee id : Nat)
    (isHeld : held s.upstream s.tees (.view tee id) = true) :
    let polled := poll answers (.view tee id) s.upstream s.tees
    s.start (.view tee id) ≤ s.upstream.produced.length ∧
    s.got (.view tee id) ++ owed s.tees (.view tee id) = s.upstream.produced.drop (s.start (.view tee id)) ∧
    (∀ event rest, owed s.tees (.view tee id) = event :: rest → polled.1 = .Ready (some event)) ∧
    (owed s.tees (.view tee id) = [] → s.upstream.ended = false → polled.1 = answers s.upstream.polls) ∧
    (polled.1 = .Ready none → polled.2.1.ended = true ∧ owed s.tees (.view tee id) = [] ∧
      s.got (.view tee id) = polled.2.1.produced.drop (s.start (.view tee id))) := by
  obtain ⟨valid,released,within,receives⟩ : s.Sound :=
    Runs.invariant (fun _ _ _ sound stepped => sound.step stepped) Views.sound_new ran
  have given := receives _ isHeld
  refine ⟨within _ isHeld,given,?_⟩
  have outcome := poll_spec answers s.tees valid released isHeld
  generalize poll answers (.view tee id) s.upstream s.tees = polled at outcome
  cases outcome with
  | queued frame first others =>
    refine ⟨?_,?_,?_⟩
    · intro event rest same
      rw [first] at same
      cases same
      rfl
    · intro nothing
      rw [first] at nothing
      cases nothing
    · intro spent
      cases spent
  | pulled answer running frame nothing still others => exact ⟨by simp [nothing],fun _ _ => answer.symm,by simp⟩
  | pending answer running frame nothing => exact ⟨by simp [nothing],fun _ _ => answer.symm,by simp⟩
  | ended frame nothing others spent produced answer =>
    refine ⟨by simp [nothing],fun _ running => (answer running).symm,fun _ => ⟨spent,nothing,?_⟩⟩
    rw [produced,← given,nothing,append_nil]

/-- A view that is made after another one has read an event gets that event too, and outlives the first one. -/
theorem views_receive_late : ∃ s : Views String,
    Runs.run (Views.step fun n => if n < 2 then .Ready (some (if n = 0 then "rain" else "sun")) else .Ready none) .new
      [.tee .source,.poll 0 0,.tee (.view 0 1),.drop (.view 0 0),.poll 1 0,.poll 1 0] = some s ∧
    s.got (.view 1 0) ++ owed s.tees (.view 1 0) = s.upstream.produced.drop (s.start (.view 1 0)) ∧
    s.got (.view 1 0) = ["rain","sun"] := by
  refine ⟨_,rfl,?_,rfl⟩
  exact (views_receive (fun n => if n < 2 then .Ready (some (if n = 0 then "rain" else "sun")) else .Ready none)
    [.tee .source,.poll 0 0,.tee (.view 0 1),.drop (.view 0 0),.poll 1 0,.poll 1 0] _ rfl 1 0 rfl).2.1

end

end Ferrin.StreamText.Tee
