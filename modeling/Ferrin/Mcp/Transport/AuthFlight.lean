import Ferrin.Library.Trace
import Ferrin.Mcp.OAuth.Provider

/-!
One authorization flow at a time. A call that finds a flow running remembers the
generation it saw under the lock and waits until the generation is another one;
the guard of a flow bumps the generation and resets the flag, also when the flow
is dropped. Calls come, are polled, end and are dropped in any order.
-/
namespace Ferrin.Mcp.Transport.AuthFlight
open Ferrin.Runs OAuth List

inductive AuthOutcome where
  | Authorized
  | Redirected

/-- A call of `authorize` where it may rest; a waiting call is awake when it is to be polled. -/
inductive Call where
  | Waiting (seen : BitVec 64) (awake : Bool)
  | Loading
  | Flowing
  | Returned (outcome : Except McpError AuthOutcome)
  | Dropped

structure Authenticator where
  enabled : Bool
  in_flight : Bool
  generation : BitVec 64
  calls : List Call

def Authenticator.new (provider : Bool) : Authenticator := ⟨provider,false,0,[]⟩

def Call.wake : Call → Call
  | .Waiting seen _ => .Waiting seen true
  | call => call

/-- `AuthFlightGuard::drop`; the sent generation wakes all that wait for it. -/
def Authenticator.drop_guard (a : Authenticator) : Authenticator :=
  {a with generation := a.generation + 1, in_flight := false, calls := a.calls.map Call.wake}

def bearer_token (stored : Except McpError (Option String)) : Option String :=
  match stored with
  | .ok tokens => tokens
  | .error _ => none

def flow_outcome (result : Except McpError AuthResult) : Except McpError AuthOutcome :=
  result.map fun
    | .Authorized => .Authorized
    | .Redirect => .Redirected

/-- What happens next: a call arrives, `wait_for` is polled, the tokens are there, a flow ends, a future is dropped. -/
inductive Event where
  | Arrive
  | Poll (call : Nat)
  | Load (call : Nat) (stored : Except McpError (Option String))
  | Finish (call : Nat) (result : Except McpError AuthResult)
  | Drop (call : Nat)

/-- The call up to its first rest, with the locked section. -/
def arrive (a : Authenticator) : Authenticator :=
  if a.enabled = false then {a with calls := a.calls ++ [.Returned (.ok .Redirected)]}
  else if a.in_flight = true then {a with calls := a.calls ++ [.Waiting a.generation true]}
  else {a with in_flight := true, calls := a.calls ++ [.Flowing]}

def step (a : Authenticator) : Event → Option Authenticator
  | .Arrive => some (arrive a)
  | .Poll i => match a.calls[i]? with
    | some (.Waiting seen _) =>
      some {a with calls := a.calls.set i (if a.generation ≠ seen then .Loading else .Waiting seen false)}
    | _ => none
  | .Load i stored => match a.calls[i]? with
    | some .Loading =>
      let outcome := if (bearer_token stored).isSome then .Authorized else .Redirected
      some {a with calls := a.calls.set i (.Returned (.ok outcome))}
    | _ => none
  | .Finish i result => match a.calls[i]? with
    | some .Flowing => some {a.drop_guard with calls := a.drop_guard.calls.set i (.Returned (flow_outcome result))}
    | _ => none
  | .Drop i => match a.calls[i]? with
    | some .Flowing => some {a.drop_guard with calls := a.drop_guard.calls.set i .Dropped}
    | some (.Waiting _ _) => some {a with calls := a.calls.set i .Dropped}
    | some .Loading => some {a with calls := a.calls.set i .Dropped}
    | _ => none

/-! ### What a step does -/

def Call.is_flowing : Call → Bool
  | .Flowing => true
  | _ => false

def Call.is_over : Call → Bool
  | .Returned _ => true
  | .Dropped => true
  | _ => false

def Call.is_waiting : Call → Bool
  | .Waiting _ _ => true
  | _ => false

/-- A step that starts a flow. -/
def begins (a : Authenticator) : Event → Bool
  | .Arrive => a.enabled && !a.in_flight
  | _ => false

def ends (a : Authenticator) : Event → Bool
  | .Finish i _ => (a.calls[i]?).any Call.is_flowing
  | .Drop i => (a.calls[i]?).any Call.is_flowing
  | _ => false

inductive Turn (generation : BitVec 64) : Call → Call → Prop where
  | pass (seen : BitVec 64) (awake : Bool) (changed : generation ≠ seen) : Turn generation (.Waiting seen awake) .Loading
  | park (awake : Bool) : Turn generation (.Waiting generation awake) (.Waiting generation false)
  | load (outcome : Except McpError AuthOutcome) : Turn generation .Loading (.Returned outcome)
  | leave (call : Call) (inside : call.is_waiting = true ∨ call = .Loading) : Turn generation call .Dropped

/-- Everything that a step can do. -/
inductive Move (a : Authenticator) : Event → Authenticator → Prop where
  | refuse (off : a.enabled = false) : Move a .Arrive {a with calls := a.calls ++ [.Returned (.ok .Redirected)]}
  | wait (on : a.enabled = true) (running : a.in_flight = true) :
      Move a .Arrive {a with calls := a.calls ++ [.Waiting a.generation true]}
  | begin (on : a.enabled = true) (idle : a.in_flight = false) :
      Move a .Arrive {a with in_flight := true, calls := a.calls ++ [.Flowing]}
  | turn (e : Event) (i : Nat) (call next : Call) (at_i : a.calls[i]? = some call) (turns : Turn a.generation call next)
      (polled : ∀ seen awake, call = .Waiting seen awake → e = .Poll i ∨ e = .Drop i)
      (none_begins : begins a e = false) (none_ends : ends a e = false) :
      Move a e {a with calls := a.calls.set i next}
  | close (e : Event) (i : Nat) (next : Call) (at_i : a.calls[i]? = some .Flowing) (done : next.is_over = true)
      (one_ends : ends a e = true) : Move a e {a.drop_guard with calls := a.drop_guard.calls.set i next}

variable {a b : Authenticator} {e : Event} {seen : BitVec 64} {call : Call} {awake : Bool}

theorem step_moves (moved : step a e = some b) : Move a e b := by
  cases e with
  | Arrive =>
    cases moved
    unfold arrive
    split_ifs with off running
    · exact .refuse off
    · exact .wait (by simpa using off) running
    · exact .begin (by simpa using off) (by simpa using running)
  | Poll i =>
    rw [step] at moved
    split at moved
    · next seen awake at_i =>
      cases moved
      by_cases changed : a.generation ≠ seen
      · rw [if_pos changed]
        exact .turn _ i _ _ at_i (.pass seen awake changed) (fun _ _ _ => .inl rfl) rfl rfl
      · rw [if_neg changed]
        obtain rfl := not_not.mp changed
        exact .turn _ i _ _ at_i (.park awake) (fun _ _ _ => .inl rfl) rfl rfl
    · cases moved
  | Load i =>
    rw [step] at moved
    split at moved
    · next at_i =>
      cases moved
      exact .turn _ i _ _ at_i (.load _) nofun rfl rfl
    · cases moved
  | Finish i =>
    rw [step] at moved
    split at moved
    · next at_i =>
      cases moved
      exact .close _ i _ at_i rfl (by simp [ends,at_i,Call.is_flowing])
    · cases moved
  | Drop i =>
    rw [step] at moved
    split at moved
    · next at_i =>
      cases moved
      exact .close _ i _ at_i rfl (by simp [ends,at_i,Call.is_flowing])
    · next seen awake at_i =>
      cases moved
      exact .turn _ i _ _ at_i (.leave _ (.inl rfl)) (fun _ _ _ => .inr rfl) rfl (by simp [ends,at_i,Call.is_flowing])
    · next at_i =>
      cases moved
      exact .turn _ i _ _ at_i (.leave _ (.inr rfl)) (fun _ _ _ => .inr rfl) rfl (by simp [ends,at_i,Call.is_flowing])
    · cases moved

section
variable {calls : List Call} {i k : Nat} {call next : Call}

theorem at_append : (calls ++ [next])[k]? = some call ↔ calls[k]? = some call ∨ k = calls.length ∧ call = next := by
  by_cases inside : k < calls.length
  · rw [getElem?_append_left inside]
    exact (or_iff_left fun last => absurd last.1 (Nat.ne_of_lt inside)).symm
  · rw [getElem?_append_right (Nat.le_of_not_lt inside),getElem?_eq_none (Nat.le_of_not_lt inside)]
    by_cases last : k = calls.length
    · subst last
      simp [eq_comm]
    · have past : k - calls.length ≠ 0 := by omega
      simp [last,past]

theorem at_set (at_i : calls[i]? = some call) {other : Call} :
    (calls.set i next)[k]? = some other ↔ k = i ∧ other = next ∨ k ≠ i ∧ calls[k]? = some other := by
  have inside : i < calls.length := (List.getElem?_eq_some_iff.mp at_i).1
  rw [getElem?_set]
  by_cases here : i = k
  · subst here
    simp [inside,eq_comm]
  · simp [here,Ne.symm here]

theorem wake_flowing : call.wake = .Flowing ↔ call = .Flowing := by cases call <;> simp [Call.wake]

theorem wake_parked : call.wake ≠ .Waiting seen false := by cases call <;> simp [Call.wake]

theorem at_wake : (calls.map Call.wake)[k]? = some next ↔ ∃ call, calls[k]? = some call ∧ call.wake = next := by
  rw [getElem?_map,Option.map_eq_some_iff]

end

structure Sound (a : Authenticator) : Prop where
  flag : a.in_flight = true ↔ ∃ i : Nat, a.calls[i]? = some .Flowing
  one : ∀ i j : Nat, a.calls[i]? = some .Flowing → a.calls[j]? = some .Flowing → i = j
  on : a.in_flight = true → a.enabled = true
  parked : ∀ (i : Nat) seen, a.calls[i]? = some (.Waiting seen false) → seen = a.generation

theorem Turn.not_flowing {generation : BitVec 64} {next : Call} (turns : Turn generation call next) :
    call ≠ .Flowing ∧ next ≠ .Flowing := by
  cases turns with
  | pass | park | load => exact ⟨nofun,nofun⟩
  | leave _ inside => exact ⟨fun same => by subst same; rcases inside with _ | _ <;> contradiction,nofun⟩

theorem Turn.parked {generation : BitVec 64} (turns : Turn generation call (.Waiting seen false)) :
    seen = generation := by
  cases turns
  rfl

theorem sound_append (sound : Sound a) (rests : call ≠ .Flowing)
    (awake : ∀ seen, call ≠ .Waiting seen false) : Sound {a with calls := a.calls ++ [call]} := by
  have still (i : Nat) : (a.calls ++ [call])[i]? = some .Flowing ↔ a.calls[i]? = some .Flowing := by
    simp [at_append,Ne.symm rests]
  refine ⟨by simpa only [still] using sound.flag,fun i j => by simpa only [still] using sound.one i j,sound.on,?_⟩
  intro i seen parked
  rcases at_append.mp parked with before | ⟨-,same⟩
  · exact sound.parked i seen before
  · exact absurd same.symm (awake seen)

theorem sound_step (sound : Sound a) (move : Move a e b) : Sound b := by
  cases move with
  | refuse => exact sound_append sound nofun nofun
  | wait => exact sound_append sound nofun (by simp)
  | begin on idle =>
    have none_flows (i : Nat) : a.calls[i]? ≠ some .Flowing := fun flowing => by
      have running := sound.flag.mpr ⟨i,flowing⟩
      rw [idle] at running
      cases running
    have last (i : Nat) : (a.calls ++ [.Flowing])[i]? = some .Flowing ↔ i = a.calls.length := by
      simp [at_append,none_flows]
    refine ⟨iff_of_true rfl ⟨_,(last _).mpr rfl⟩,?_,fun _ => on,?_⟩
    · intro i j at_i at_j
      exact ((last i).mp at_i).trans ((last j).mp at_j).symm
    · intro i seen parked
      exact sound.parked i seen (by simpa [at_append] using parked)
  | turn _ i _ next at_i turns =>
    have still (k : Nat) : (a.calls.set i next)[k]? = some .Flowing ↔ a.calls[k]? = some .Flowing := by
      rw [at_set at_i]
      constructor
      · rintro (⟨-,same⟩ | ⟨-,flowing⟩)
        · exact absurd same.symm turns.not_flowing.2
        · exact flowing
      · intro flowing
        refine .inr ⟨?_,flowing⟩
        rintro rfl
        rw [at_i] at flowing
        exact turns.not_flowing.1 (Option.some.inj flowing)
    refine ⟨by simpa only [still] using sound.flag,fun k j => by simpa only [still] using sound.one k j,sound.on,?_⟩
    intro k seen parked
    rcases (at_set at_i).mp parked with ⟨-,same⟩ | ⟨-,before⟩
    · subst same
      exact turns.parked
    · exact sound.parked k seen before
  | close _ i next at_i done =>
    have woken : (a.calls.map Call.wake)[i]? = some .Flowing := at_wake.mpr ⟨_,at_i,rfl⟩
    have none_flows (k : Nat) : ((a.calls.map Call.wake).set i next)[k]? ≠ some .Flowing := by
      intro flowing
      rcases (at_set woken).mp flowing with ⟨-,same⟩ | ⟨other,before⟩
      · subst same
        cases done
      · obtain ⟨call,at_k,same⟩ := at_wake.mp before
        rw [wake_flowing.mp same] at at_k
        exact other (sound.one k i at_k at_i)
    refine ⟨iff_of_false nofun fun ⟨k,flowing⟩ => none_flows k flowing,fun k j flowing => absurd flowing (none_flows k),
      nofun,?_⟩
    intro k seen parked
    rcases (at_set woken).mp parked with ⟨-,same⟩ | ⟨-,before⟩
    · subst same
      cases done
    · obtain ⟨_,-,same⟩ := at_wake.mp before
      exact absurd same wake_parked

theorem Move.generation (move : Move a e b) :
    b.generation = if ends a e = true then a.generation + 1 else a.generation := by
  cases move with
  | refuse | wait | begin => rfl
  | turn _ _ _ _ _ _ _ _ none_ends => simp [none_ends]
  | close _ _ _ _ _ one_ends => simp [one_ends,Authenticator.drop_guard]

theorem Move.balance (sound : Sound a) (move : Move a e b) :
    (a.in_flight.toNat + if begins a e = true then 1 else 0) = b.in_flight.toNat + if ends a e = true then 1 else 0 := by
  cases move with
  | refuse off => simp [begins,ends,off]
  | wait _ running => simp [begins,ends,running]
  | begin on idle => simp [begins,ends,on,idle]
  | turn _ _ _ _ _ _ _ none_begins none_ends => simp [none_begins,none_ends]
  | close e i _ at_i _ one_ends =>
    have none_begins : begins a e = false := by
      cases e with
      | Arrive => cases one_ends
      | _ => rfl
    simp [none_begins,one_ends,sound.flag.mpr ⟨i,at_i⟩,Authenticator.drop_guard]

def Call.is_past (call : Call) : Bool := !call.is_waiting && !call.is_flowing

section
variable {a b : Authenticator} {e : Event} {k : Nat} {call : Call}

theorem Move.one_call (move : Move a e b) (at_k : a.calls[k]? = some call) : ∃ next, b.calls[k]? = some next ∧
    (next = call ∨ next = call.wake ∨ Turn a.generation call next ∨
      call = .Flowing ∧ ends a e = true ∧ next.is_over = true) := by
  cases move with
  | refuse | wait | begin => exact ⟨call,at_append.mpr (.inl at_k),.inl rfl⟩
  | turn _ i _ next at_i turns =>
    by_cases here : k = i
    · subst here
      cases at_i.symm.trans at_k
      exact ⟨next,(at_set at_i).mpr (.inl ⟨rfl,rfl⟩),.inr (.inr (.inl turns))⟩
    · exact ⟨call,(at_set at_i).mpr (.inr ⟨here,at_k⟩),.inl rfl⟩
  | close _ i next at_i done one_ends =>
    have woken : (a.calls.map Call.wake)[i]? = some .Flowing := at_wake.mpr ⟨_,at_i,rfl⟩
    by_cases here : k = i
    · subst here
      cases at_i.symm.trans at_k
      exact ⟨next,(at_set woken).mpr (.inl ⟨rfl,rfl⟩),.inr (.inr (.inr ⟨rfl,one_ends,done⟩))⟩
    · exact ⟨call.wake,(at_set woken).mpr (.inr ⟨here,at_wake.mpr ⟨_,at_k,rfl⟩⟩),.inr (.inl rfl)⟩

theorem Move.over_stays (move : Move a e b) (finished : call.is_over = true) (at_k : a.calls[k]? = some call) :
    b.calls[k]? = some call := by
  obtain ⟨_,at_k',rfl | rfl | turns | ⟨rfl,-,-⟩⟩ := move.one_call at_k
  · exact at_k'
  · cases call with
    | Returned | Dropped => exact at_k'
    | _ => cases finished
  · cases turns with
    | leave _ inside =>
      cases call with
      | Returned | Dropped => rcases inside with inside | inside <;> cases inside
      | _ => cases finished
    | _ => cases finished
  · cases finished

theorem Move.past (move : Move a e b) (past : call.is_past = true) (at_k : a.calls[k]? = some call) :
    ∃ next, b.calls[k]? = some next ∧ next.is_past = true := by
  obtain ⟨next,at_k',rfl | rfl | turns | ⟨rfl,-,-⟩⟩ := move.one_call at_k
  · exact ⟨_,at_k',past⟩
  · cases call with
    | Waiting => cases past
    | _ => exact ⟨_,at_k',past⟩
  · refine ⟨next,at_k',?_⟩
    cases turns with
    | park => cases past
    | _ => rfl
  · cases past

theorem Move.waiting (move : Move a e b)
    (at_k : a.calls[k]? = some (.Waiting seen awake)) : ∃ next, b.calls[k]? = some next ∧
      ((∃ awake, next = .Waiting seen awake) ∨ a.generation ≠ seen ∧ next.is_past = true ∨ next = .Dropped) := by
  obtain ⟨next,at_k',rfl | rfl | turns | ⟨same,-,-⟩⟩ := move.one_call at_k
  · exact ⟨_,at_k',.inl ⟨_,rfl⟩⟩
  · exact ⟨_,at_k',.inl ⟨_,rfl⟩⟩
  · refine ⟨next,at_k',?_⟩
    cases turns with
    | pass _ _ changed => exact .inr (.inl ⟨changed,rfl⟩)
    | park => exact .inl ⟨_,rfl⟩
    | leave => exact .inr (.inr rfl)
  · cases same

theorem Move.flow (move : Move a e b) (sound : Sound a) (at_k : a.calls[k]? = some .Flowing) :
    ends a e = false ∧ b.calls[k]? = some .Flowing ∨
      ends a e = true ∧ ∃ next, b.calls[k]? = some next ∧ next.is_over = true := by
  cases move with
  | refuse | wait | begin => exact .inl ⟨rfl,at_append.mpr (.inl at_k)⟩
  | turn _ _ _ _ at_i turns _ _ none_ends =>
    refine .inl ⟨none_ends,(at_set at_i).mpr (.inr ⟨?_,at_k⟩)⟩
    rintro rfl
    cases at_i.symm.trans at_k
    exact turns.not_flowing.1 rfl
  | close _ i next at_i done one_ends =>
    obtain rfl := sound.one i k at_i at_k
    exact .inr ⟨one_ends,next,(at_set (at_wake.mpr ⟨_,at_i,rfl⟩)).mpr (.inl ⟨rfl,rfl⟩),done⟩

end

/-! ### Runs -/

abbrev Run (provider : Bool) := Trace step (Authenticator.new provider)

/-- An executor polls a call that is awake, unless its future is dropped. -/
def Fair {provider : Bool} (x : Run provider) : Prop :=
  ∀ n (i : Nat) seen, (x.states n).calls[i]? = some (.Waiting seen true) →
    ∃ m, n ≤ m ∧ (x.events m = some (.Poll i) ∨ x.events m = some (.Drop i))

structure Follows {provider : Bool} (x : Run provider) (n flow call : Nat) : Prop where
  starts_none : ∀ m, n < m → (x.states m).calls[call]? ≠ some .Flowing
  after : ∀ m outcome, n < m → (x.states m).calls[call]? = some .Loading ∨
    (x.states m).calls[call]? = some (.Returned outcome) →
    ∃ ended, (x.states m).calls[flow]? = some ended ∧ ended.is_over = true
  released : Fair x → ∀ m ended, n < m → (x.states m).calls[flow]? = some ended → ended.is_over = true →
    ∃ l, m ≤ l ∧ ∀ k, l ≤ k → ∃ later, (x.states k).calls[call]? = some later ∧ later.is_waiting = false

structure SingleFlight {provider : Bool} (x : Run provider) : Prop where
  one : ∀ n (i j : Nat), (x.states n).calls[i]? = some .Flowing → (x.states n).calls[j]? = some .Flowing → i = j
  flag : ∀ n, (x.states n).in_flight = true ↔ ∃ i : Nat, (x.states n).calls[i]? = some .Flowing
  joins : ∀ n, x.events n = some .Arrive → (x.states n).in_flight = true →
    ∃ flow : Nat, (x.states n).calls[flow]? = some .Flowing ∧ Follows x n flow (x.states n).calls.length
  resets : ∀ n e, x.events n = some e → ends (x.states n) e = true → (x.states (n + 1)).in_flight = false ∧
    ∃ next, step (x.states (n + 1)) .Arrive = some next ∧ next.calls = (x.states (n + 1)).calls ++ [.Flowing]

section
variable {provider : Bool} (x : Run provider)

theorem sound_new : Sound (.new provider) :=
  ⟨iff_of_false nofun fun ⟨_,flowing⟩ => by simp [Authenticator.new] at flowing,fun _ _ flowing => by
    simp [Authenticator.new] at flowing,nofun,fun _ _ parked => by simp [Authenticator.new] at parked⟩

theorem sound_at (n : Nat) : Sound (x.states n) :=
  x.invariant sound_new (fun _ _ _ sound moved => sound_step sound (step_moves moved)) n

variable {n flow k m : Nat}

theorem move_at (event : x.events n = some e) : Move (x.states n) e (x.states (n + 1)) :=
  step_moves (x.moves n e event)

theorem generation_at (n : Nat) : (x.states n).generation = BitVec.ofNat 64 (x.count ends n) := by
  induction n with
  | zero => rw [x.starts]; rfl
  | succ n ih =>
    cases event : x.events n with
    | none => rw [x.rests n event,x.count_rest event,ih]
    | some =>
      rw [(move_at x event).generation,x.count_move event,ih]
      split_ifs with ended
      · simp [BitVec.ofNat_add]
      · simp

theorem balance_at (n : Nat) : x.count begins n = x.count ends n + (x.states n).in_flight.toNat := by
  induction n with
  | zero => rw [x.starts]; rfl
  | succ n ih =>
    cases event : x.events n with
    | none => rw [x.rests n event,x.count_rest event,x.count_rest event,ih]
    | some =>
      have balance := (move_at x event).balance (sound_at x n)
      rw [x.count_move event,x.count_move event]
      omega

theorem flow_from (flowing : (x.states n).calls[flow]? = some .Flowing) : ∀ m, n ≤ m →
    x.count ends m = x.count ends n ∧ (x.states m).calls[flow]? = some .Flowing ∨
      x.count ends n < x.count ends m ∧ ∃ ended, (x.states m).calls[flow]? = some ended ∧ ended.is_over = true := by
  intro m later
  induction m, later using Nat.le_induction with
  | base => exact .inl ⟨rfl,flowing⟩
  | succ m _ ih =>
    cases event : x.events m with
    | none => rw [x.rests m event,x.count_rest event]; exact ih
    | some =>
      have move := move_at x event
      rw [x.count_move event]
      rcases ih with ⟨same,running⟩ | ⟨_,ended,at_m,finished⟩
      · rcases move.flow (sound_at x m) running with ⟨none_ends,still⟩ | ⟨one_ends,ended⟩
        · exact .inl ⟨by simp [none_ends,same],still⟩
        · exact .inr ⟨by simp [one_ends,same],ended⟩
      · exact .inr ⟨by omega,ended,move.over_stays finished at_m,finished⟩

theorem waiting_from {call : Nat}
    (waits : (x.states n).calls[call]? = some (.Waiting (x.states n).generation awake)) : ∀ m, n ≤ m →
    (∃ awake, (x.states m).calls[call]? = some (.Waiting (x.states n).generation awake)) ∨
      (x.count ends n < x.count ends m ∧ ∃ past, (x.states m).calls[call]? = some past ∧ past.is_past = true) ∨
      (x.states m).calls[call]? = some .Dropped := by
  intro m later
  induction m, later using Nat.le_induction with
  | base => exact .inl ⟨awake,waits⟩
  | succ m later ih =>
    cases event : x.events m with
    | none => rw [x.rests m event,x.count_rest event]; exact ih
    | some =>
      have move := move_at x event
      rw [x.count_move event]
      rcases ih with ⟨awake,at_m⟩ | ⟨more,past,at_m,is_past⟩ | dropped
      · obtain ⟨next,at_m',⟨awake,rfl⟩ | ⟨changed,is_past⟩ | rfl⟩ := move.waiting at_m
        · exact .inl ⟨awake,at_m'⟩
        · have more : x.count ends n < x.count ends m := by
            refine Nat.lt_of_le_of_ne (x.count_mono later) fun same => changed ?_
            rw [generation_at,generation_at,same]
          exact .inr (.inl ⟨by omega,next,at_m',is_past⟩)
        · exact .inr (.inr at_m')
      · exact .inr (.inl ⟨by omega,move.past is_past at_m⟩)
      · exact .inr (.inr (move.over_stays rfl dropped))

theorem past_from (at_n : (x.states n).calls[k]? = some call) (past : call.is_past = true) :
    ∀ m, n ≤ m → ∃ later, (x.states m).calls[k]? = some later ∧ later.is_past = true :=
  x.always_from (P := fun a => ∃ later, a.calls[k]? = some later ∧ later.is_past = true) ⟨call,at_n,past⟩
    fun _ _ _ _ holds _ moved => let ⟨_,at_m,past⟩ := holds; (step_moves moved).past past at_m

theorem leaves (at_m : (x.states m).calls[k]? = some (.Waiting seen awake))
    (changed : (x.states m).generation ≠ seen) (event : x.events m = some (.Poll k) ∨ x.events m = some (.Drop k)) :
    ∃ next, (x.states (m + 1)).calls[k]? = some next ∧ next.is_past = true := by
  rcases event with poll | drop
  · have moved := x.moves m _ poll
    simp only [step,at_m,if_pos changed,Option.some.injEq] at moved
    rw [← moved]
    exact ⟨.Loading,(at_set at_m).mpr (.inl ⟨rfl,rfl⟩),rfl⟩
  · have moved := x.moves m _ drop
    simp only [step,at_m,Option.some.injEq] at moved
    rw [← moved]
    exact ⟨.Dropped,(at_set at_m).mpr (.inl ⟨rfl,rfl⟩),rfl⟩

theorem generation_differs (few : ∀ n, x.count begins n < 2 ^ 64) (more : x.count ends n < x.count ends m) :
    (x.states m).generation ≠ (x.states n).generation := by
  have bound (n : Nat) : x.count ends n < 2 ^ 64 := by
    have all := few n
    rw [balance_at] at all
    omega
  rw [generation_at,generation_at]
  intro same
  have numbers := congrArg BitVec.toNat same
  rw [BitVec.toNat_ofNat,BitVec.toNat_ofNat,Nat.mod_eq_of_lt (bound m),Nat.mod_eq_of_lt (bound n)] at numbers
  omega

theorem follows (few : ∀ n, x.count begins n < 2 ^ 64) (event : x.events n = some .Arrive)
    (running : (x.states n).in_flight = true) (flowing : (x.states n).calls[flow]? = some .Flowing) :
    Follows x n flow (x.states n).calls.length := by
  have arrived : x.states (n + 1) = {x.states n with calls := (x.states n).calls ++ [.Waiting (x.states n).generation true]} := by
    have moved := x.moves n _ event
    rw [step,arrive,if_neg (by simp [(sound_at x n).on running]),if_pos running] at moved
    exact (Option.some.inj moved).symm
  have waits : (x.states (n + 1)).calls[(x.states n).calls.length]? = some (.Waiting (x.states (n + 1)).generation true) := by
    rw [arrived]
    exact at_append.mpr (.inr ⟨rfl,rfl⟩)
  have still : (x.states (n + 1)).calls[flow]? = some .Flowing := by
    rw [arrived]
    exact at_append.mpr (.inl flowing)
  have call_at := waiting_from x waits
  have flow_at := flow_from x still
  refine ⟨fun m later flows => ?_,fun m outcome later out => ?_,fun fair m ended later at_m finished => ?_⟩
  · rcases call_at m later with ⟨awake,at_m⟩ | ⟨-,past,at_m,is_past⟩ | at_m
    · cases at_m.symm.trans flows
    · cases at_m.symm.trans flows
      cases is_past
    · cases at_m.symm.trans flows
  · rcases call_at m later with ⟨awake,at_m⟩ | ⟨more,-⟩ | at_m
    · rcases out with out | out <;> cases at_m.symm.trans out
    · rcases flow_at m later with ⟨_,-⟩ | ⟨-,ended⟩
      · omega
      · exact ended
    · rcases out with out | out <;> cases at_m.symm.trans out
  · have more : x.count ends (n + 1) < x.count ends m := by
      rcases flow_at m later with ⟨-,runs⟩ | ⟨more,-⟩
      · cases at_m.symm.trans runs
        cases finished
      · exact more
    have out_from {l : Nat} (reached : m ≤ l) {past : Call} (at_l : (x.states l).calls[(x.states n).calls.length]? = some past)
        (is_past : past.is_past = true) : ∃ l, m ≤ l ∧ ∀ k, l ≤ k →
          ∃ later, (x.states k).calls[(x.states n).calls.length]? = some later ∧ later.is_waiting = false := by
      refine ⟨l,reached,fun k after => ?_⟩
      obtain ⟨later,at_k,is_past⟩ := past_from x at_l is_past k after
      refine ⟨later,at_k,?_⟩
      cases later with
      | Waiting => cases is_past
      | _ => rfl
    rcases call_at m later with ⟨awake,at_m⟩ | ⟨-,past,at_m,is_past⟩ | at_m
    · -- parked, it would have seen the last generation, but flows have ended since
      have woken : awake = true := by
        by_contra parked
        rw [Bool.not_eq_true] at parked
        subst parked
        exact generation_differs x few more ((sound_at x m).parked _ _ at_m).symm
      subst woken
      obtain ⟨l,reached,event⟩ := fair m _ _ at_m
      rcases call_at l (by omega) with ⟨_,at_l⟩ | ⟨-,_,at_l,is_past⟩ | at_l
      · have changed := generation_differs x few (Nat.lt_of_lt_of_le more (x.count_mono reached))
        obtain ⟨_,at_next,is_past⟩ := leaves x at_l changed event
        exact out_from (by omega) at_next is_past
      · exact out_from reached at_l is_past
      · exact out_from reached at_l rfl
    · exact out_from (Nat.le_refl m) at_m is_past
    · exact out_from (Nat.le_refl m) at_m rfl

end

/-- For every run of fewer flows than there are generations. -/
theorem authorize_single_flight (provider : Bool) (x : Run provider) (few : ∀ n, x.count begins n < 2 ^ 64) :
    SingleFlight x := by
  refine ⟨fun n => (sound_at x n).one,fun n => (sound_at x n).flag,fun n event running => ?_,fun n e event one_ends => ?_⟩
  · obtain ⟨flow,flowing⟩ := (sound_at x n).flag.mp running
    exact ⟨flow,flowing,follows x few event running flowing⟩
  · have move := move_at x event
    generalize x.states (n + 1) = b at move ⊢
    cases move with
    | refuse | wait | begin => cases one_ends
    | turn _ _ _ _ _ _ _ _ none_ends => simp [one_ends] at none_ends
    | close _ i next at_i =>
      have on : (x.states n).enabled = true := (sound_at x n).on ((sound_at x n).flag.mpr ⟨i,at_i⟩)
      refine ⟨rfl,_,rfl,?_⟩
      simp [arrive,Authenticator.drop_guard,on]

/-- Two calls at once, the second polled too early, then a third one for the next flow. -/
def two_calls : List Event :=
  [.Arrive,.Arrive,.Poll 1,.Finish 0 (.ok .Authorized),.Arrive,.Poll 1,.Load 1 (.ok (some "token")),.Drop 2]

theorem authorize_single_flight_two : SingleFlight (Trace.ofEvents (Authenticator.new true) two_calls rfl) :=
  authorize_single_flight true _ fun n =>
    Nat.lt_of_le_of_lt (Trace.count_ofEvents_le two_calls rfl begins n) (by decide)

end Ferrin.Mcp.Transport.AuthFlight
