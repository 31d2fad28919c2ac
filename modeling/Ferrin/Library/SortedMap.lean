import Ferrin.Library.Assoc

/-!
Maps as lists of entries in the order of their keys.
-/
namespace SortedMap
open Ferrin List Assoc
variable {κ β : Type} [LinearOrder κ]

def upsert (key : κ) (change : Option β → β) : List (κ × β) → List (κ × β)
  | [] => [(key,change none)]
  | (other,value) :: rest =>
    if key < other then (key,change none) :: (other,value) :: rest
    else if key = other then (other,change (some value)) :: rest
    else (other,value) :: upsert key change rest

/-- The keys grow. -/
def Sorted (entries : List (κ × β)) : Prop := (entries.map (·.1)).Pairwise (· < ·)

variable {key : κ} {change : Option β → β}

theorem mem_keys_upsert {k : κ} {entries : List (κ × β)} :
    k ∈ (upsert key change entries).map (·.1) ↔ k = key ∨ k ∈ entries.map (·.1) := by
  induction entries with
  | nil => simp [upsert]
  | cons entry _ ih =>
    obtain ⟨_,_⟩ := entry
    unfold upsert
    split_ifs with before same
    · simp
    · simp [same]
    · rw [map_cons,mem_cons,ih,map_cons,mem_cons]
      exact or_left_comm

theorem Sorted.upsert {entries : List (κ × β)} (sorted : Sorted entries) : Sorted (upsert key change entries) := by
  induction entries with
  | nil => simp [Sorted,SortedMap.upsert]
  | cons entry _ ih =>
    obtain ⟨_,_⟩ := entry
    obtain ⟨first,later⟩ := List.pairwise_cons.mp sorted
    unfold SortedMap.upsert
    split_ifs with before same
    · refine List.pairwise_cons.mpr ⟨fun k mem => ?_,sorted⟩
      rcases List.mem_cons.mp mem with rfl | mem
      · exact before
      · exact before.trans (first k mem)
    · exact sorted
    · refine List.pairwise_cons.mpr ⟨fun k mem => ?_,ih later⟩
      rcases mem_keys_upsert.mp mem with rfl | mem
      · exact lt_of_le_of_ne (not_lt.mp before) (Ne.symm same)
      · exact first k mem

theorem Sorted.nodup {entries : List (κ × β)} (sorted : Sorted entries) : (entries.map (·.1)).Nodup :=
  sorted.imp fun less => less.ne

theorem lookup_below {entries : List (κ × β)} {k : κ} (below : ∀ other ∈ entries.map (·.1), k < other) :
    entries.lookup k = none :=
  lookup_none fun mem => (below k mem).false

theorem lookup_upsert {entries : List (κ × β)} (sorted : Sorted entries) (k : κ) :
    (upsert key change entries).lookup k = if k = key then some (change (entries.lookup key)) else entries.lookup k := by
  induction entries with
  | nil => rw [upsert,lookup_entry]; rfl
  | cons entry rest ih =>
    obtain ⟨other,value⟩ := entry
    obtain ⟨first,later⟩ := List.pairwise_cons.mp sorted
    rw [upsert]
    by_cases before : key < other
    · have absent : ((other,value) :: rest).lookup key = none := lookup_below fun k mem => by
        rcases List.mem_cons.mp mem with rfl | mem
        · exact before
        · exact before.trans (first k mem)
      rw [if_pos before,lookup_entry,absent]
    · by_cases same : key = other
      · subst same
        rw [if_neg before,if_pos rfl,lookup_entry,lookup_entry,lookup_entry,if_pos rfl]
        split_ifs <;> rfl
      · rw [if_neg before,if_neg same,lookup_entry,ih later,lookup_entry,lookup_entry,if_neg same]
        by_cases here : k = key
        · rw [if_neg fun same' : k = other => same (here ▸ same'),if_pos here,if_pos here]
        · rw [if_neg here,if_neg here]

/-! ### Groups -/

section
variable {α : Type} (key : α → κ)

def group (l : List α) : List (κ × List α) :=
  l.foldl (fun groups a => upsert (key a) (fun known => known.getD [] ++ [a]) groups) []

theorem group_append (l : List α) (a : α) :
    group key (l ++ [a]) = upsert (key a) (fun known => known.getD [] ++ [a]) (group key l) := by
  rw [group,foldl_append]
  rfl

theorem group_sorted (l : List α) : Sorted (group key l) := by
  induction l using reverseRecOn with
  | nil => exact .nil
  | append_singleton l a ih => rw [group_append]; exact ih.upsert

theorem lookup_group (l : List α) (k : κ) :
    (group key l).lookup k = if l.filter (key · = k) = [] then none else some (l.filter (key · = k)) := by
  induction l using reverseRecOn with
  | nil => rfl
  | append_singleton l a ih =>
    rw [group_append,lookup_upsert (group_sorted key l),filter_append]
    by_cases here : k = key a
    · subst here
      rw [ih]
      split_ifs with none_before <;> simp_all
    · simp [ih,Ne.symm here,here]

theorem mem_group {l : List α} {k : κ} {members : List α} :
    (k,members) ∈ group key l ↔ members = l.filter (key · = k) ∧ members ≠ [] := by
  constructor
  · intro mem
    have found := lookup_of_mem (group_sorted key l).nodup mem
    rw [lookup_group] at found
    split_ifs at found with nothing
    cases found
    exact ⟨rfl,nothing⟩
  · rintro ⟨rfl,some_⟩
    exact mem_of_lookup ((lookup_group key l k).trans (if_neg some_))

end

end SortedMap
