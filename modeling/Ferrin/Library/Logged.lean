import Mathlib.Logic.Function.Basic

/-!
Computations that record events, decide by what was recorded, and may fail, with
the rules for what they keep of a condition on the events.
-/
namespace Ferrin.Library

/-- From the events so far to all events and a result. The events of a failure stay. -/
def Logged (E ε α : Type) : Type := List E → List E × Except ε α

namespace Logged

variable {E ε α β : Type}

instance : Monad (Logged E ε) where
  pure a := fun events => (events,.ok a)
  bind x f := fun events =>
    match x events with
    | (events,.ok a) => f a events
    | (events,.error error) => (events,.error error)

def fail (error : ε) : Logged E ε α := fun events => (events,.error error)

def record (event : E) : Logged E ε Unit := fun events => (events ++ [event],.ok ())

/-- An answer from outside, which may depend on all that happened. -/
def answer (f : List E → Except ε α) : Logged E ε α := fun events => (events,f events)

def lift (result : Except ε α) : Logged E ε α := answer fun _ => result

def observe (f : List E → α) : Logged E ε α := answer fun events => .ok (f events)

/-- The computation with its failure as a value. -/
def outcome (x : Logged E ε α) : Logged E ε (Except ε α) := fun events =>
  match x events with
  | (events,result) => (events,.ok result)

/-- From a state where `pre` holds the computation ends where `ok` holds of its value, or fails where `inv` holds. -/
def Spec (inv pre : List E → Prop) (x : Logged E ε α) (ok : α → List E → Prop) : Prop :=
  ∀ events, pre events →
    match x events with
    | (events,.ok a) => ok a events
    | (events,.error _) => inv events

variable {inv pre : List E → Prop} {x : Logged E ε α} {ok : α → List E → Prop}

theorem Spec.pure {a : α} (holds : ∀ events, pre events → ok a events) : Spec inv pre (Pure.pure a : Logged E ε α) ok :=
  holds

theorem Spec.bind {f : α → Logged E ε β} {m : α → List E → Prop} {ok : β → List E → Prop} (first : Spec inv pre x m)
    (rest : ∀ a, Spec inv (m a) (f a) ok) : Spec inv pre (x >>= f) ok := by
  intro events holds
  have reached := first events holds
  change match (match x events with
    | (events,.ok a) => f a events
    | (events,.error error) => (events,.error error)) with
    | (events,.ok a) => ok a events
    | (events,.error _) => inv events
  cases ran : x events with
  | mk next result =>
    rw [ran] at reached
    cases result with
    | ok a => exact rest a next reached
    | error => exact reached

theorem Spec.fail {error : ε} (holds : ∀ events, pre events → inv events) :
    Spec inv pre (fail error : Logged E ε α) ok := holds

theorem Spec.record {event : E} {ok : Unit → List E → Prop} (holds : ∀ events, pre events → ok () (events ++ [event])) :
    Spec inv pre (record event : Logged E ε Unit) ok := holds

theorem Spec.answer {f : List E → Except ε α} (failed : ∀ events, pre events → inv events)
    (holds : ∀ events a, pre events → f events = .ok a → ok a events) : Spec inv pre (answer f) ok := by
  intro events before
  unfold Logged.answer
  cases result : f events with
  | ok a => exact holds events a before result
  | error => exact failed events before

theorem Spec.lift {result : Except ε α} (failed : ∀ events, pre events → inv events)
    (holds : ∀ events a, pre events → result = .ok a → ok a events) : Spec inv pre (lift result : Logged E ε α) ok :=
  .answer failed holds

theorem Spec.observe {f : List E → α} (holds : ∀ events, pre events → ok (f events) events) :
    Spec inv pre (observe f : Logged E ε α) ok := holds

theorem Spec.outcome {kept : List E → Prop} {ok : Except ε α → List E → Prop} (holds : Spec kept pre x fun a => ok (.ok a))
    (failed : ∀ error events, kept events → ok (.error error) events) : Spec inv pre (outcome x) ok := by
  intro events before
  have reached := holds events before
  unfold Logged.outcome
  cases ran : x events with
  | mk next result =>
    rw [ran] at reached
    cases result with
    | ok => exact reached
    | error error => exact failed error next reached

theorem Spec.final {events : List E} (holds : Spec inv pre x fun _ => inv) (before : pre events) : inv (x events).1 := by
  have reached := holds events before
  cases ran : x events with
  | mk _ result =>
    rw [ran] at reached
    cases result with
    | ok => exact reached
    | error => exact reached

theorem Spec.strengthen {pre' : List E → Prop} (holds : Spec inv pre x ok) (implies : ∀ events, pre' events → pre events) :
    Spec inv pre' x ok := fun events before => holds events (implies events before)

theorem Spec.relax {kept : List E → Prop} (holds : Spec kept pre x ok) (implies : ∀ events, kept events → inv events) :
    Spec inv pre x ok := by
  intro events before
  have reached := holds events before
  cases ran : x events with
  | mk next result =>
    rw [ran] at reached
    cases result with
    | ok => exact reached
    | error => exact implies next reached

theorem Spec.weaken {ok' : α → List E → Prop} (holds : Spec inv pre x ok)
    (implies : ∀ a events, ok a events → ok' a events) : Spec inv pre x ok' := by
  intro events before
  have reached := holds events before
  cases ran : x events with
  | mk next result =>
    rw [ran] at reached
    cases result with
    | ok a => exact implies a next reached
    | error => exact reached

end Logged

end Ferrin.Library
