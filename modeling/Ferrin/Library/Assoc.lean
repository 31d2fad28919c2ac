import Mathlib.Algebra.Order.Ring.Nat
import Mathlib.Data.List.Basic
import Mathlib.Data.List.Induction

/-!
Finite maps as lists of entries, where an insertion replaces the entry of its key.
-/
namespace Ferrin.Assoc
open List
open List (mem_cons mem_filter mem_map sum)

variable {α β : Type} [DecidableEq α]

def remove (map : List (α × β)) (key : α) : List (α × β) := map.filter (·.1 ≠ key)

def put (map : List (α × β)) (key : α) (value : β) : List (α × β) := (key,value) :: remove map key

theorem lookup_entry (entry : α × β) (rest : List (α × β)) (key : α) :
    (entry :: rest).lookup key = if key = entry.1 then some entry.2 else rest.lookup key := by
  rw [lookup_cons]
  by_cases same : key = entry.1
  · simp [same]
  · rw [if_neg same,beq_eq_false_iff_ne.mpr same]

theorem lookup_remove (map : List (α × β)) (k other : α) :
    (remove map k).lookup other = if other = k then none else map.lookup other := by
  unfold remove
  induction map with
  | nil => simp
  | cons entry _ ih =>
    obtain ⟨a,b⟩ := entry
    by_cases dropped : a = k
    · rw [filter_cons_of_neg (by simpa using dropped),ih,lookup_cons]
      split_ifs with same
      · rfl
      · have skip : (other == a) = false := by simpa [dropped] using same
        rw [skip]
    · rw [filter_cons_of_pos (by simpa using dropped),lookup_cons,lookup_cons,ih]
      cases here : other == a with
      | true =>
        have differs : other ≠ k := fun same => dropped (same ▸ (beq_iff_eq.mp here).symm)
        simp only [if_neg differs]
      | false => rfl

theorem lookup_put (map : List (α × β)) (k : α) (v : β) (other : α) :
    (put map k v).lookup other = if other = k then some v else map.lookup other := by
  rw [put,lookup_cons,lookup_remove]
  cases here : other == k with
  | true => simp only [if_pos (beq_iff_eq.mp here)]
  | false =>
    have differs : other ≠ k := by simpa using here
    rw [if_neg differs,if_neg differs]

variable {map entries : List (α × β)} {k key : α} {v : β}

theorem mem_of_lookup (found : map.lookup k = some v) : (k,v) ∈ map := by
  induction map with
  | nil => cases found
  | cons entry _ ih =>
    rw [lookup_cons] at found
    cases here : k == entry.1 with
    | true =>
      rw [here] at found
      cases found
      exact beq_iff_eq.mp here ▸ mem_cons_self
    | false =>
      rw [here] at found
      exact mem_cons_of_mem entry (ih found)

theorem lookup_none (absent : key ∉ map.map (·.1)) : map.lookup key = none := by
  rw [Option.eq_none_iff_forall_not_mem]
  intro value held
  exact absent (mem_map.mpr ⟨_,mem_of_lookup held,rfl⟩)

theorem lookup_of_mem {value : β} (unique : (entries.map (·.1)).Nodup) (mem : (key,value) ∈ entries) :
    entries.lookup key = some value := by
  induction entries with
  | nil => cases mem
  | cons entry _ ih =>
    rw [map_cons,nodup_cons] at unique
    rcases mem_cons.mp mem with rfl | later
    · simp
    · have differs : (key == entry.1) = false := by
        simpa using fun same : key = entry.1 => unique.1 (same ▸ mem_map.mpr ⟨_,later,rfl⟩)
      rw [lookup_cons,differs]
      exact ih unique.2 later

theorem lookup_isSome_of_mem {entry : α × β} (mem : entry ∈ map) : (map.lookup entry.1).isSome := by
  induction map with
  | nil => cases mem
  | cons first _ ih =>
    rw [lookup_cons]
    cases here : entry.1 == first.1 with
    | true => rfl
    | false =>
      rcases mem_cons.mp mem with rfl | later
      · simp at here
      · exact ih later

theorem remove_of_absent (absent : map.lookup k = none) : remove map k = map := by
  refine List.filter_eq_self.mpr fun entry member => ?_
  have known := lookup_isSome_of_mem member
  refine decide_eq_true fun same => ?_
  rw [same,absent] at known
  cases known

theorem perm_of_lookup (keyed : (map.map (·.1)).Nodup)
    (found : map.lookup k = some v) : map.Perm ((k,v) :: remove map k) := by
  induction map with
  | nil => cases found
  | cons entry rest ih =>
    obtain ⟨a,b⟩ := entry
    rw [map_cons,nodup_cons] at keyed
    rw [lookup_cons] at found
    cases here : k == a with
    | true =>
      obtain rfl := beq_iff_eq.mp here
      rw [here] at found
      obtain rfl := Option.some.inj found
      have others : rest.lookup k = none := by
        by_contra known
        obtain ⟨w,found⟩ := Option.ne_none_iff_exists'.mp known
        exact keyed.1 (mem_map.mpr ⟨_,mem_of_lookup found,rfl⟩)
      rw [remove,filter_cons_of_neg (by simp)]
      exact .cons _ (.of_eq (remove_of_absent others).symm)
    | false =>
      rw [here] at found
      have differs : a ≠ k := fun same => by simp [same] at here
      rw [remove,filter_cons_of_pos (by simpa using differs)]
      exact (List.Perm.cons _ (ih keyed.2 found)).trans (.swap _ _ _)

theorem perm_replace (keyed : (map.map (·.1)).Nodup) (found : map.lookup k = some v) (w : β) :
    (map.map fun entry => if entry.1 = k then (k,w) else entry).Perm ((k,w) :: remove map k) := by
  have replaced := (perm_of_lookup keyed found).map fun entry => if entry.1 = k then (k,w) else entry
  have others : ((remove map k).map fun entry => if entry.1 = k then (k,w) else entry) = remove map k := by
    have kept : ∀ entry ∈ remove map k, (if entry.1 = k then (k,w) else entry) = entry := fun entry mem =>
      if_neg (of_decide_eq_true (mem_filter.mp mem).2)
    exact (map_congr_left kept).trans (map_id _)
  rw [map_cons,if_pos rfl,others] at replaced
  exact replaced

theorem sum_filter_add {γ : Type} (p : γ → Bool) (f : γ → Nat) (l : List γ) :
    (l.map f).sum = ((l.filter p).map f).sum + ((l.filter (!p ·)).map f).sum := by
  induction l with
  | nil => rfl
  | cons x _ ih => cases holds : p x <;> simp [holds,ih] <;> omega

theorem sum_by_key (weight : β → Nat) (keys : List α) (once : keys.Nodup) : ∀ entries : List (α × β),
    (∀ entry ∈ entries, entry.1 ∈ keys) → (entries.map fun entry => weight entry.2).sum =
      (keys.map fun key => ((entries.filter (·.1 = key)).map fun entry => weight entry.2).sum).sum := by
  induction keys with
  | nil =>
    intro entries known
    have none : entries = [] := List.eq_nil_iff_forall_not_mem.mpr fun entry mem => absurd (known entry mem) (by simp)
    simp [none]
  | cons key _ ih =>
    intro entries known
    rw [nodup_cons] at once
    rw [sum_filter_add (·.1 = key),map_cons,sum_cons]
    congr 1
    rw [ih once.2]
    · refine congrArg sum (map_congr_left fun other mem => ?_)
      rw [filter_filter]
      have differs : other ≠ key := fun same => once.1 (same ▸ mem)
      refine congrArg (fun l : List (α × β) => (List.map (fun entry => weight entry.2) l).sum) (filter_congr fun entry _ => ?_)
      by_cases same : entry.1 = other
      · simp [same,differs]
      · simp [same]
    · intro entry mem
      obtain ⟨inside,differs⟩ := mem_filter.mp mem
      exact (mem_cons.mp (known entry inside)).resolve_left (by simpa using differs)

def Keyed (map : List (α × β)) : Prop := ∀ k v, (k,v) ∈ map → map.lookup k = some v

theorem Keyed.remove (keyed : Keyed map) (key : α) : Keyed (remove map key) := by
  intro k v mem
  obtain ⟨inside,differs⟩ := mem_filter.mp mem
  rw [lookup_remove,if_neg (by simpa using differs)]
  exact keyed k v inside

theorem Keyed.put (keyed : Keyed map) (key : α) (value : β) : Keyed (put map key value) := by
  intro k v mem
  rw [lookup_put]
  rcases mem_cons.mp mem with same | later
  · cases same
    rw [if_pos rfl]
  · obtain ⟨inside,differs⟩ := mem_filter.mp later
    rw [if_neg (by simpa using differs)]
    exact keyed k v inside

def collect (entries : List (α × β)) : List (α × β) := entries.foldl (fun map entry => put map entry.1 entry.2) []

theorem collect_append (entries : List (α × β)) (entry : α × β) :
    collect (entries ++ [entry]) = put (collect entries) entry.1 entry.2 := by
  simp [collect,foldl_append]

theorem mem_of_lookup_collect (found : (collect entries).lookup k = some v) : (k,v) ∈ entries := by
  induction entries using reverseRecOn with
  | nil => cases found
  | append_singleton _ _ ih =>
    rw [collect_append,lookup_put] at found
    split_ifs at found with same
    · cases found
      simp [same]
    · simp [ih found]

theorem lookup_collect_of_mem (mem : (k,v) ∈ entries) : ∃ w, (collect entries).lookup k = some w := by
  induction entries using reverseRecOn with
  | nil => cases mem
  | append_singleton _ entry ih =>
    rw [collect_append,lookup_put]
    split_ifs with same
    · exact ⟨entry.2,rfl⟩
    · rcases List.mem_append.mp mem with before | last
      · exact ih before
      · cases List.mem_singleton.mp last
        exact absurd rfl same

end Ferrin.Assoc
