import Mathlib.Algebra.Order.Ring.Nat
import Mathlib.Data.List.Basic

/-!
Texts put together with a separator: between all of them, between those that
are not empty, or from the last one on wherever neither side is empty. When
these come to the same is a matter of which texts are empty.
-/
namespace Ferrin.Separated
open List
variable {α : Type}

def filled (texts : List (List α)) : List (List α) := texts.filter fun text => !text.isEmpty

/-- Texts put together from the last one on. `led` says that something stands before them. -/
def rejoin (separator : List α) : Bool → List (List α) → List α
  | _,[] => []
  | led,text :: rest =>
    let after := rejoin separator true rest
    text ++ (if (text = [] ∧ led = false) ∨ after = [] then [] else separator) ++ after

/-- Nothing follows an empty text. -/
def Gapless : List (List α) → Prop
  | [] => True
  | text :: rest => (text = [] → ∀ other ∈ rest, other = []) ∧ Gapless rest

instance Gapless.decidable [DecidableEq α] : ∀ texts : List (List α), Decidable (Gapless texts)
  | [] => isTrue trivial
  | text :: rest =>
    have := Gapless.decidable rest
    inferInstanceAs (Decidable ((text = [] → ∀ other ∈ rest, other = []) ∧ Gapless rest))

variable {separator : List α} {texts rest : List (List α)} {text : List α} {led : Bool}

@[simp] theorem filled_nil : filled ([] :: rest) = filled rest := rfl

@[simp] theorem filled_cons (some_text : text ≠ []) : filled (text :: rest) = text :: filled rest := by
  simp [filled,some_text]

theorem filled_eq_nil : filled texts = [] ↔ ∀ text ∈ texts, text = [] := by
  simp [filled]

theorem rejoin_eq_nil : rejoin separator led texts = [] ↔ ∀ text ∈ texts, text = [] := by
  induction texts generalizing led with
  | nil => simp [rejoin]
  | cons _ _ ih =>
    have later := @ih true
    rw [rejoin]
    simp only [append_eq_nil_iff,mem_cons,forall_eq_or_imp,← later]
    constructor
    · rintro ⟨⟨here,_⟩,after⟩
      exact ⟨here,after⟩
    · rintro ⟨here,after⟩
      exact ⟨⟨here,if_pos (.inr after)⟩,after⟩

/-! ### Between the texts that are not empty -/

theorem intercalate_cons : separator.intercalate (text :: rest) =
    text ++ if rest = [] then [] else separator ++ separator.intercalate rest := by
  split_ifs with last
  · rw [last,intercalate_singleton,append_nil]
  · rw [intercalate_cons_of_ne_nil last,append_assoc]

theorem rejoin_filled_cons (some_text : text ≠ []) : rejoin separator led (text :: rest) =
    text ++ if filled rest = [] then [] else separator ++ rejoin separator true rest := by
  rw [rejoin]
  by_cases spent : rejoin separator true rest = []
  · have nothing : filled rest = [] := filled_eq_nil.mpr (rejoin_eq_nil.mp spent)
    simp [spent,nothing]
  · have something : filled rest ≠ [] := fun nothing => spent (rejoin_eq_nil.mpr (filled_eq_nil.mp nothing))
    simp [spent,something,some_text]

theorem rejoin_cons_nil : rejoin separator true ([] :: rest) =
    (if filled rest = [] then [] else separator) ++ rejoin separator true rest := by
  rw [rejoin]
  by_cases spent : rejoin separator true rest = []
  · have nothing : filled rest = [] := filled_eq_nil.mpr (rejoin_eq_nil.mp spent)
    simp [spent,nothing]
  · have something : filled rest ≠ [] := fun nothing => spent (rejoin_eq_nil.mpr (filled_eq_nil.mp nothing))
    simp [spent,something]

theorem length_rejoin : (separator.intercalate (filled texts)).length ≤ (rejoin separator true texts).length := by
  induction texts with
  | nil => exact Nat.le_refl _
  | cons text =>
    by_cases empty : text = []
    · rw [empty,filled_nil,rejoin_cons_nil,length_append]
      omega
    · rw [filled_cons empty,intercalate_cons,rejoin_filled_cons empty]
      split_ifs
      · exact Nat.le_refl _
      · simp only [length_append]
        omega

theorem rejoin_eq_intercalate : rejoin separator true texts = separator.intercalate (filled texts) ↔
    separator = [] ∨ Gapless texts := by
  induction texts with
  | nil => simp [rejoin,filled,Gapless]
  | cons text rest ih =>
    by_cases empty : text = []
    · subst empty
      rw [filled_nil,rejoin_cons_nil]
      by_cases spent : filled rest = []
      · have later : ∀ other ∈ rest, other = [] := filled_eq_nil.mp spent
        have gapless : Gapless ([] :: rest) ↔ Gapless rest := ⟨And.right,fun after => ⟨fun _ => later,after⟩⟩
        rw [if_pos spent,nil_append,ih,gapless]
      · have gap : ¬ Gapless ([] :: rest) := fun gapless => spent (filled_eq_nil.mpr (gapless.1 rfl))
        rw [if_neg spent]
        constructor
        · intro same
          have lengths := congrArg List.length same
          have bound := @length_rejoin _ separator rest
          rw [length_append] at lengths
          exact .inl (eq_nil_of_length_eq_zero (by omega))
        · rintro (rfl | gapless)
          · exact ih.mpr (.inl rfl)
          · exact absurd gapless gap
    · have gapless : Gapless (text :: rest) ↔ Gapless rest := by simp [Gapless,empty]
      rw [filled_cons empty,intercalate_cons,rejoin_filled_cons empty,gapless,← ih]
      by_cases spent : filled rest = []
      · have nothing : rejoin separator true rest = [] := rejoin_eq_nil.mpr (filled_eq_nil.mp spent)
        simp [spent,nothing]
      · rw [if_neg spent,if_neg spent,append_cancel_left_eq,append_cancel_left_eq]

theorem rejoin_front : rejoin separator false (text :: rest) = separator.intercalate (filled (text :: rest)) ↔
    separator = [] ∨ Gapless rest := by
  by_cases empty : text = []
  · subst empty
    rw [filled_nil,← rejoin_eq_intercalate,rejoin]
    simp
  · have gapless : Gapless (text :: rest) ↔ Gapless rest := by simp [Gapless,empty]
    rw [← gapless,← rejoin_eq_intercalate,rejoin_filled_cons empty,rejoin_filled_cons empty]

theorem length_intercalate (separator : List α) : ∀ texts : List (List α),
    (separator.intercalate texts).length = (texts.map List.length).sum + (texts.length - 1) * separator.length
  | [] => by simp
  | text :: rest => by
    rw [intercalate_cons,List.length_append]
    split_ifs with last
    · simp [last]
    · obtain ⟨second,others,rfl⟩ := List.exists_cons_of_ne_nil last
      rw [length_append,length_intercalate separator (second :: others)]
      simp only [map_cons,sum_cons,length_cons,Nat.add_sub_cancel,Nat.add_mul]
      omega

theorem sum_filled : ((filled texts).map List.length).sum = (texts.map List.length).sum := by
  induction texts with
  | nil => rfl
  | cons text _ ih =>
    by_cases empty : text = []
    · simp [empty,ih]
    · simp [empty,ih]

theorem intercalate_empty : ∀ texts : List (List α), ([] : List α).intercalate texts = texts.flatten
  | [] => rfl
  | text :: rest => by
    rw [intercalate_cons,intercalate_empty rest,List.flatten_cons]
    split_ifs with last <;> simp [last]

theorem intercalate_filled : separator.intercalate texts = separator.intercalate (filled texts) ↔
    separator = [] ∨ texts.length ≤ 1 ∨ ∀ text ∈ texts, text ≠ [] := by
  constructor
  · intro same
    by_cases none_between : separator = []
    · exact .inl none_between
    · have lengths := congrArg List.length same
      rw [length_intercalate,length_intercalate,sum_filled] at lengths
      have counts : texts.length - 1 = (filled texts).length - 1 :=
        Nat.eq_of_mul_eq_mul_right (List.length_pos_iff.mpr none_between) (Nat.add_left_cancel lengths)
      have fewer : (filled texts).length ≤ texts.length := length_filter_le _ _
      by_cases few : texts.length ≤ 1
      · exact .inr (.inl few)
      · have whole : (filled texts).length = texts.length := by omega
        have kept := List.length_filter_eq_length_iff.mp whole
        exact .inr (.inr fun text mem => by simpa using kept text mem)
  · rintro (rfl | few | all)
    · rw [intercalate_empty,intercalate_empty,filled,flatten_filter_not_isEmpty]
    · match texts,few with
      | [],_ => rfl
      | [text],_ =>
        by_cases empty : text = []
        · simp [empty,filled]
        · simp [empty,filled]
    · have whole : filled texts = texts := List.filter_eq_self.mpr fun text mem => by simp [all text mem]
      rw [whole]

end Ferrin.Separated
