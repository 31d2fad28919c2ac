import Mathlib.Data.List.Sort

/-!
Lists with keys. The sort by a key is stable, so a sorted list is known by what
it holds under each key: lists that agree key by key sort alike (`sortByKey_eq`).
-/
namespace Ferrin.StableSort
open List

variable {α κ : Type} [LinearOrder κ]

def sortByKey (key : α → κ) (l : List α) : List α := l.insertionSort (key · ≤ key ·)

variable (key : α → κ)

theorem sortByKey_sorted (l : List α) : (sortByKey key l).Pairwise (key · ≤ key ·) :=
  haveI : Std.Total fun a b : α => key a ≤ key b := ⟨fun a b => le_total (key a) (key b)⟩
  haveI : IsTrans α fun a b => key a ≤ key b := ⟨fun _ _ _ => le_trans⟩
  pairwise_insertionSort _ l

theorem sortByKey_perm (l : List α) : (sortByKey key l).Perm l := List.perm_insertionSort _ l

theorem filter_orderedInsert (k : κ) (a : α) (l : List α) :
    (l.orderedInsert (key · ≤ key ·) a).filter (key · = k) = (a :: l).filter (key · = k) := by
  induction l with
  | nil => rfl
  | cons b =>
    rw [orderedInsert_cons]
    split_ifs with before
    · rfl
    · have behind : key b ≠ key a := fun same => before same.ge
      by_cases here : key b = k
      · have other : key a ≠ k := fun same => behind (here.trans same.symm)
        simp_all
      · simp_all [filter_cons]

theorem filter_sortByKey (k : κ) (l : List α) :
    (sortByKey key l).filter (key · = k) = l.filter (key · = k) := by
  induction l with
  | nil => rfl
  | cons _ _ ih =>
    unfold sortByKey at ih ⊢
    rw [insertionSort_cons,filter_orderedInsert,filter_cons,filter_cons,ih]

theorem eq_of_filters {key : α → κ} {l m : List α} (sorted : l.Pairwise (key · ≤ key ·))
    (sorted' : m.Pairwise (key · ≤ key ·))
    (agree : ∀ k, l.filter (key · = k) = m.filter (key · = k)) : l = m := by
  induction l generalizing m with
  | nil =>
    cases m with
    | nil => rfl
    | cons b => simpa using agree (key b)
  | cons a as ih =>
    cases m with
    | nil => simpa using agree (key a)
    | cons b bs =>
      have mem : ∀ x, x ∈ a :: as ↔ x ∈ b :: bs := by
        intro x
        have here := congrArg (x ∈ ·) (agree (key x))
        simpa [mem_filter] using here
      have first : key a = key b := by
        refine le_antisymm ?_ ?_
        · rcases List.mem_cons.mp ((mem b).mpr mem_cons_self) with rfl | later
          · exact le_rfl
          · exact rel_of_pairwise_cons sorted later
        · rcases List.mem_cons.mp ((mem a).mp mem_cons_self) with rfl | later
          · exact le_rfl
          · exact rel_of_pairwise_cons sorted' later
      have heads := agree (key a)
      rw [filter_cons_of_pos (by simp),filter_cons_of_pos (by simp [first])] at heads
      obtain ⟨rfl,-⟩ := List.cons.inj heads
      congr 1
      refine ih sorted.of_cons sorted'.of_cons fun k => ?_
      have both := agree k
      by_cases here : key a = k
      · simpa [here] using both
      · simpa [here] using both

theorem sortByKey_eq {key : α → κ} {l m : List α} (agree : ∀ k, l.filter (key · = k) = m.filter (key · = k)) :
    sortByKey key l = sortByKey key m := by
  refine eq_of_filters (sortByKey_sorted key l) (sortByKey_sorted key m) fun k => ?_
  rw [filter_sortByKey,filter_sortByKey,agree]

/-! ### What is under a key -/

section
variable {β ι : Type} [DecidableEq ι] {key : α → ι}

variable (key) in
/-- When every element yields things under its own key, what is under a key comes from the elements with it. -/
theorem filter_flatMap {f : α → List (ι × β)} (own : ∀ a, ∀ x ∈ f a, x.1 = key a) (id : ι) (l : List α) :
    (l.flatMap f).filter (·.1 = id) = (l.filter (key · = id)).flatMap f := by
  induction l with
  | nil => rfl
  | cons a _ ih =>
    rw [flatMap_cons,filter_append,ih]
    by_cases here : key a = id
    · have all : (f a).filter (·.1 = id) = f a :=
        List.filter_eq_self.mpr fun x mem => by simpa [here] using own a x mem
      rw [all,filter_cons_of_pos (by simpa using here),flatMap_cons]
    · have none : (f a).filter (·.1 = id) = [] :=
        List.filter_eq_nil_iff.mpr fun x mem => by simpa [own a x mem] using here
      rw [none,filter_cons_of_neg (by simpa using here),nil_append]

theorem filter_key {l : List α} (distinct : (l.map key).Nodup) (id : ι) :
    l.filter (key · = id) = [] ∨ ∃ a ∈ l, key a = id ∧ l.filter (key · = id) = [a] := by
  induction l with
  | nil => exact .inl rfl
  | cons a rest ih =>
    rw [map_cons,nodup_cons] at distinct
    by_cases here : key a = id
    · have others : rest.filter (key · = id) = [] := by
        refine List.filter_eq_nil_iff.mpr fun b mem same => distinct.1 ?_
        rw [here,← of_decide_eq_true same]
        exact mem_map_of_mem mem
      exact .inr ⟨a,mem_cons_self,here,by rw [filter_cons_of_pos (by simpa using here),others]⟩
    · rw [filter_cons_of_neg (by simpa using here)]
      rcases ih distinct.2 with none | ⟨b,mem,same,only⟩
      · exact .inl none
      · exact .inr ⟨b,mem_cons_of_mem a mem,same,only⟩

end

end Ferrin.StableSort
