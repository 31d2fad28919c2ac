import Mathlib.Data.List.Perm.Basic

/-!
A list that two others make up, each in its own order.
-/

variable {α : Type}

inductive Interleaved : List α → List α → List α → Prop where
  | nil : Interleaved [] [] []
  | left {a : α} {l m whole : List α} (rest : Interleaved l m whole) : Interleaved (a :: l) m (a :: whole)
  | right {a : α} {l m whole : List α} (rest : Interleaved l m whole) : Interleaved l (a :: m) (a :: whole)

namespace Interleaved
open List
variable {l m whole : List α}

theorem only_left : ∀ l : List α, Interleaved l [] l
  | [] => .nil
  | _ :: rest => .left (only_left rest)

theorem perm (made : Interleaved l m whole) : whole.Perm (l ++ m) := by
  induction made with
  | nil => exact .nil
  | left _ ih => exact ih.cons _
  | right _ ih => exact (ih.cons _).trans List.perm_middle.symm

theorem mem_iff (made : Interleaved l m whole) {a : α} : a ∈ whole ↔ a ∈ l ∨ a ∈ m := by
  rw [made.perm.mem_iff,mem_append]

theorem filter (made : Interleaved l m whole) (p : α → Bool) : Interleaved (l.filter p) (m.filter p) (whole.filter p) := by
  induction made with
  | nil => exact .nil
  | @left a _ _ _ _ ih =>
    cases chosen : p a with
    | true => rw [filter_cons_of_pos chosen,filter_cons_of_pos chosen]; exact .left ih
    | false => simpa [filter_cons,chosen] using ih
  | @right a _ _ _ _ ih =>
    cases chosen : p a with
    | true => rw [filter_cons_of_pos chosen,filter_cons_of_pos chosen]; exact .right ih
    | false => simpa [filter_cons,chosen] using ih

theorem eq_left (made : Interleaved l [] whole) : whole = l := by
  induction l generalizing whole with
  | nil => cases made; rfl
  | cons _ _ ih =>
    cases made with
    | left made => rw [ih made]

theorem filter_eq (made : Interleaved l m whole) {p : α → Bool} (none_right : ∀ a ∈ m, p a = false) :
    whole.filter p = l.filter p := by
  have nothing : m.filter p = [] := List.filter_eq_nil_iff.mpr fun a mem => by simp [none_right a mem]
  exact (nothing ▸ made.filter p).eq_left

theorem assoc {more after : List α} (first : Interleaved l m whole) (second : Interleaved whole more after) :
    ∃ both, Interleaved m more both ∧ Interleaved l both after := by
  induction second generalizing l m with
  | nil => cases first; exact ⟨[],.nil,.nil⟩
  | left _ ih =>
    cases first with
    | left first => obtain ⟨both,made,inside⟩ := ih first; exact ⟨both,made,.left inside⟩
    | right first => obtain ⟨both,made,inside⟩ := ih first; exact ⟨_ :: both,.left made,.right inside⟩
  | right _ ih => obtain ⟨both,made,inside⟩ := ih first; exact ⟨_ :: both,.right made,.right inside⟩

end Interleaved
