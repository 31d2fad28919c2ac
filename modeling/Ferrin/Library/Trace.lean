import Ferrin.Library.Runs
import Mathlib.Order.Nat

/-!
Infinite runs of a system that moves by events and may rest between them.
-/
namespace Ferrin.Runs

structure Trace {σ ε : Type} (step : σ → ε → Option σ) (start : σ) where
  states : Nat → σ
  events : Nat → Option ε
  starts : states 0 = start
  rests : ∀ n, events n = none → states (n + 1) = states n
  moves : ∀ n e, events n = some e → step (states n) e = some (states (n + 1))

namespace Trace
variable {σ ε : Type} {step : σ → ε → Option σ} {start : σ}

theorem always_from (x : Trace step start) {P : σ → Prop} {n : Nat} (now : P (x.states n))
    (keeps : ∀ m e t, n ≤ m → P (x.states m) → x.events m = some e → step (x.states m) e = some t → P t) :
    ∀ m, n ≤ m → P (x.states m) := by
  intro m later
  induction m, later using Nat.le_induction with
  | base => exact now
  | succ m later ih =>
    cases event : x.events m with
    | none => exact (x.rests m event).symm ▸ ih
    | some e => exact keeps m e _ later ih event (x.moves m e event)

theorem invariant (x : Trace step start) {P : σ → Prop} (first : P start)
    (keeps : ∀ s e t, P s → step s e = some t → P t) (n : Nat) : P (x.states n) :=
  x.always_from (x.starts.symm ▸ first) (fun _ e t _ holds _ moved => keeps _ e t holds moved) n (Nat.zero_le n)

def count (x : Trace step start) (kind : σ → ε → Bool) : Nat → Nat
  | 0 => 0
  | n + 1 => x.count kind n + match x.events n with
    | none => 0
    | some e => if kind (x.states n) e then 1 else 0

section
variable (x : Trace step start) {kind : σ → ε → Bool} {n : Nat}

theorem count_rest (rest : x.events n = none) : x.count kind (n + 1) = x.count kind n := by
  rw [count,rest]
  rfl

theorem count_move {e : ε} (event : x.events n = some e) :
    x.count kind (n + 1) = x.count kind n + if kind (x.states n) e then 1 else 0 := by
  rw [count,event]

theorem count_mono : ∀ {n m : Nat}, n ≤ m → x.count kind n ≤ x.count kind m := by
  intro n m later
  induction m, later using Nat.le_induction with
  | base => rfl
  | succ m _ ih => exact ih.trans (Nat.le_add_right _ _)

end

/-! ### Runs of finitely many events -/

def stateAt (step : σ → ε → Option σ) (s : σ) : List ε → Nat → σ
  | [],_ => s
  | _ :: _,0 => s
  | e :: rest,n + 1 => match step s e with
    | some t => stateAt step t rest n
    | none => s

theorem stateAt_zero (s : σ) (events : List ε) : stateAt step s events 0 = s := by cases events <;> rfl

def ofEvents (start : σ) (events : List ε) (runs : (run step start events).isSome) : Trace step start where
  states := stateAt step start events
  events n := events[n]?
  starts := stateAt_zero start events
  rests := by
    intro n past
    induction events generalizing start n with
    | nil => rfl
    | cons e _ ih =>
      cases n with
      | zero => cases past
      | succ n =>
        rw [run] at runs
        cases moved : step start e with
        | none => rw [moved] at runs; cases runs
        | some t =>
          rw [moved] at runs
          simpa [stateAt,moved] using ih t runs n past
  moves := by
    intro n e at_n
    induction events generalizing start n with
    | nil => cases at_n
    | cons first _ ih =>
      rw [run] at runs
      cases moved : step start first with
      | none => rw [moved] at runs; cases runs
      | some t =>
        rw [moved] at runs
        cases n with
        | zero =>
          cases at_n
          simp [stateAt,moved,stateAt_zero]
        | succ n => simpa [stateAt,moved] using ih t runs n at_n

theorem count_ofEvents_le (events : List ε) (runs : (run step start events).isSome) (kind : σ → ε → Bool) (n : Nat) :
    (ofEvents start events runs).count kind n ≤ events.length := by
  suffices bound : (ofEvents start events runs).count kind n ≤ min n events.length from
    Nat.le_trans bound (Nat.min_le_right _ _)
  induction n with
  | zero => exact Nat.zero_le _
  | succ n =>
    cases event : events[n]? with
    | none =>
      rw [count_rest _ event]
      omega
    | some =>
      have inside : n < events.length := (List.getElem?_eq_some_iff.mp event).1
      rw [count_move _ event]
      split_ifs <;> omega

end Trace

end Ferrin.Runs
