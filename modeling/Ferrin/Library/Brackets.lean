import Mathlib.Data.Finset.Basic

/-!
Brackets with names: things that are opened, used while they are open, and
closed. A sequence of marks takes the set of open names to another one, or
breaks the discipline.
-/
namespace Ferrin.Brackets

inductive Mark (κ : Type) where
  | opens (k : κ)
  | within (k : κ)
  | closes (k : κ)

variable {κ : Type} [DecidableEq κ]

def step (s : Finset κ) : Mark κ → Option (Finset κ)
  | .opens k => if k ∈ s then none else some (insert k s)
  | .within k => if k ∈ s then some s else none
  | .closes k => if k ∈ s then some (s.erase k) else none

def run (s : Finset κ) : List (Mark κ) → Option (Finset κ)
  | [] => some s
  | m :: rest => (step s m).bind (run · rest)

@[simp] theorem run_nil (s : Finset κ) : run s [] = some s := rfl

@[simp] theorem run_singleton (s : Finset κ) (m : Mark κ) : run s [m] = step s m := by
  simp [run]

theorem step_opens_some {s t : Finset κ} {k : κ} : step s (.opens k) = some t ↔ k ∉ s ∧ insert k s = t := by
  simp [step]

theorem step_within_some {s t : Finset κ} {k : κ} : step s (.within k) = some t ↔ k ∈ s ∧ s = t := by
  simp [step]

theorem step_closes_some {s t : Finset κ} {k : κ} : step s (.closes k) = some t ↔ k ∈ s ∧ s.erase k = t := by
  simp [step]

theorem run_append (before after : List (Mark κ)) : ∀ s : Finset κ,
    run s (before ++ after) = (run s before).bind (run · after) := by
  induction before with
  | nil => intro s; rfl
  | cons _ _ ih =>
    intro s
    simp only [List.cons_append,run,Option.bind_assoc]
    congr 1
    funext t
    exact ih t

@[simp] theorem run_opens {s : Finset κ} {k : κ} (closed : k ∉ s) (rest : List (Mark κ)) :
    run s (.opens k :: rest) = run (insert k s) rest := by
  simp [run,step,closed]

@[simp] theorem run_within {s : Finset κ} {k : κ} (isOpen : k ∈ s) (rest : List (Mark κ)) :
    run s (.within k :: rest) = run s rest := by
  simp [run,step,isOpen]

@[simp] theorem run_closes {s : Finset κ} {k : κ} (isOpen : k ∈ s) (rest : List (Mark κ)) :
    run s (.closes k :: rest) = run (s.erase k) rest := by
  simp [run,step,isOpen]

theorem run_close_all (open_ : List κ) (once : open_.Nodup) :
    run open_.toFinset (open_.map .closes) = some ∅ := by
  induction open_ with
  | nil => rfl
  | cons k rest ih =>
    rw [List.nodup_cons] at once
    have smaller : (k :: rest).toFinset.erase k = rest.toFinset := by
      rw [List.toFinset_cons,Finset.erase_insert (by simpa using once.1)]
    rw [List.map_cons,run_closes (by simp),smaller]
    exact ih once.2

end Ferrin.Brackets
