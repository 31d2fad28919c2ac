import Mathlib.Logic.Function.Basic

/-!
Programs with a store of their own that ask for answers. Whoever answers may
keep a state; a map between two such states that the answers respect is
respected by the run of every program.
-/
namespace Ferrin.Library

/-- A program over the store `ω` that ends in an `R`. The type of an answer depends on the query. -/
inductive Program (ω Q : Type) (A : Q → Type) (R : Type) where
  | done (result : R)
  | read (next : ω → Program ω Q A R)
  | write (store : ω) (next : Program ω Q A R)
  | ask (query : Q) (next : A query → Program ω Q A R)

/-- A computation that changes a state and a store and yields a result. -/
abbrev Stateful (σ ω R : Type) : Type := σ → ω → σ × ω × R

namespace Program

variable {σ τ ω Q R : Type} {A : Q → Type}

def run (answer : (query : Q) → Stateful σ ω (A query)) : Program ω Q A R → Stateful σ ω R
  | .done result,s,w => (s,w,result)
  | .read next,s,w => (next w).run answer s w
  | .write store next,s,_ => next.run answer s store
  | .ask query next,s,w =>
    match answer query s w with
    | (s,w,reply) => (next reply).run answer s w

/-- Two computations that do the same, with states that a map relates. -/
def Related (f : σ → τ) (first : Stateful σ ω R) (second : Stateful τ ω R) : Prop :=
  ∀ s w, second (f s) w = (f (first s w).1,(first s w).2)

theorem run_related {f : σ → τ} {answer : (query : Q) → Stateful σ ω (A query)}
    {answer' : (query : Q) → Stateful τ ω (A query)} (related : ∀ query, Related f (answer query) (answer' query))
    (program : Program ω Q A R) : Related f (program.run answer) (program.run answer') := by
  induction program with
  | done => exact fun s w => rfl
  | read _ ih => exact fun s w => ih w s w
  | write store _ ih => exact fun s w => ih s store
  | ask query _ ih =>
    intro s w
    rw [run,related query s w]
    exact ih _ _ _

end Program

end Ferrin.Library
