import Ferrin.Library.Assoc
import Mathlib.Data.List.Nodup

/-!
Maps that keep the order in which their keys came. An insertion of a known key
replaces its value in place, a removal closes the gap.
-/

structure IndexMap (α β : Type) where
  entries : List (α × β)
  unique : (entries.map (·.1)).Nodup

namespace IndexMap
open Ferrin List
variable {α β : Type}

def empty : IndexMap α β := ⟨[],.nil⟩
def keys (map : IndexMap α β) : List α := map.entries.map (·.1)

@[simp] theorem empty_entries : (empty : IndexMap α β).entries = [] := rfl

theorem ext {a b : IndexMap α β} (same : a.entries = b.entries) : a = b := by
  cases a; cases b; cases same; rfl

variable [DecidableEq α]

def get (map : IndexMap α β) (key : α) : Option β := map.entries.lookup key
def contains (map : IndexMap α β) (key : α) : Bool := (map.get key).isSome

/-! ### Insertion -/

def insertEntry (key : α) (value : β) : List (α × β) → List (α × β)
  | [] => [(key,value)]
  | entry :: rest => if entry.1 = key then (key,value) :: rest else entry :: insertEntry key value rest

section
variable {key : α} {value : β}

theorem insertEntry_append {front : List (α × β)} (fresh : key ∉ front.map (·.1)) (rest : List (α × β)) :
    insertEntry key value (front ++ rest) = front ++ insertEntry key value rest := by
  induction front with
  | nil => rfl
  | cons _ _ ih =>
    simp only [map_cons,mem_cons,not_or] at fresh
    rw [cons_append,insertEntry,if_neg (Ne.symm fresh.1),ih fresh.2,cons_append]

theorem insertEntry_fresh {entries : List (α × β)} (fresh : key ∉ entries.map (·.1)) :
    insertEntry key value entries = entries ++ [(key,value)] := by
  simpa [insertEntry] using insertEntry_append fresh []

theorem insertEntry_middle {front rest : List (α × β)} {before : β} (fresh : key ∉ front.map (·.1)) :
    insertEntry key value (front ++ (key,before) :: rest) = front ++ (key,value) :: rest := by
  rw [insertEntry_append fresh,insertEntry,if_pos rfl]

theorem remove_middle {front rest : List (α × β)} {before : β} (fresh : key ∉ front.map (·.1)) (absent : key ∉ rest.map (·.1)) :
    (front ++ (key,before) :: rest).filter (·.1 ≠ key) = front ++ rest := by
  have all {entries : List (α × β)} (without : key ∉ entries.map (·.1)) : entries.filter (·.1 ≠ key) = entries :=
    List.filter_eq_self.mpr fun entry mem =>
      decide_eq_true fun same => without (List.mem_map.mpr ⟨entry,mem,same⟩)
  rw [filter_append,all fresh,filter_cons_of_neg (by simp),all absent]

theorem insertEntry_twice (first : β) (entries : List (α × β)) :
    insertEntry key value (insertEntry key first entries) = insertEntry key value entries := by
  induction entries with
  | nil => simp [insertEntry]
  | cons entry _ ih => by_cases same : entry.1 = key <;> simp [insertEntry,same,ih]

theorem keys_insertEntry (entries : List (α × β)) : (insertEntry key value entries).map (·.1) =
    if key ∈ entries.map (·.1) then entries.map (·.1) else entries.map (·.1) ++ [key] := by
  induction entries with
  | nil => rfl
  | cons entry rest ih =>
    by_cases same : entry.1 = key
    · simp [insertEntry,same]
    · by_cases later : key ∈ rest.map (·.1)
      · simp [insertEntry,same,Ne.symm same,ih,later]
      · simp [insertEntry,same,Ne.symm same,ih,later]

theorem lookup_insertEntry (entries : List (α × β)) (other : α) : (insertEntry key value entries).lookup other =
    if other = key then some value else entries.lookup other := by
  induction entries with
  | nil =>
    by_cases here : other = key
    · simp [insertEntry,here]
    · simp [insertEntry,here]
  | cons entry _ ih =>
    obtain ⟨known,_⟩ := entry
    by_cases same : known = key
    · subst same
      by_cases here : other = known
      · simp [insertEntry,here]
      · simp [insertEntry,lookup_cons,here,beq_eq_false_iff_ne.mpr here]
    · rw [insertEntry,if_neg same,lookup_cons,ih,lookup_cons]
      by_cases here : other = known
      · simp [here,same]
      · simp only [beq_eq_false_iff_ne.mpr here]

end

def insert (map : IndexMap α β) (key : α) (value : β) : IndexMap α β where
  entries := insertEntry key value map.entries
  unique := by
    rw [keys_insertEntry]
    split_ifs with known
    · exact map.unique
    · exact List.nodup_append.mpr ⟨map.unique,List.nodup_singleton key,fun a member b last same =>
        known (List.mem_singleton.mp last ▸ same ▸ member)⟩

def shift_remove (map : IndexMap α β) (key : α) : IndexMap α β where
  entries := map.entries.filter (·.1 ≠ key)
  unique := map.unique.sublist (List.filter_sublist.map _)

section
variable (map : IndexMap α β) {key : α} {value : β}

@[simp] theorem insert_entries : (map.insert key value).entries = insertEntry key value map.entries := rfl

@[simp] theorem shift_remove_entries : (map.shift_remove key).entries = map.entries.filter (·.1 ≠ key) := rfl

theorem insert_insert (first : β) : (map.insert key first).insert key value = map.insert key value :=
  ext (insertEntry_twice first map.entries)

theorem get_insert (other : α) : (map.insert key value).get other = if other = key then some value else map.get other :=
  lookup_insertEntry map.entries other

theorem lookup_isSome_iff {entries : List (α × β)} : (entries.lookup key).isSome ↔ key ∈ entries.map (·.1) := by
  constructor
  · intro known
    obtain ⟨_,found⟩ := Option.isSome_iff_exists.mp known
    exact List.mem_map.mpr ⟨_,Assoc.mem_of_lookup found,rfl⟩
  · intro mem
    obtain ⟨_,inside,rfl⟩ := List.mem_map.mp mem
    exact Assoc.lookup_isSome_of_mem inside

theorem contains_iff : map.contains key = true ↔ key ∈ map.keys := lookup_isSome_iff

theorem keys_insert (known : key ∈ map.keys) : (map.insert key value).keys = map.keys :=
  (keys_insertEntry map.entries).trans (if_pos known)

theorem get_eq_some : map.get key = some value ↔ (key,value) ∈ map.entries :=
  ⟨Assoc.mem_of_lookup,Assoc.lookup_of_mem map.unique⟩

end

theorem foldl_at {π χ : Type} {step : π → α × β → π} {seen : π → α → χ} {change : α × β → χ → χ}
    (here_only : ∀ state entry key, seen (step state entry) key =
      if key = entry.1 then change entry (seen state key) else seen state key) :
    ∀ (entries : List (α × β)) (state : π) (key : α), (entries.map (·.1)).Nodup →
      seen (entries.foldl step state) key = match entries.lookup key with
        | some value => change (key,value) (seen state key)
        | none => seen state key
  | [],_,_,_ => rfl
  | (first,value) :: rest,state,key,unique => by
    rw [List.map_cons,List.nodup_cons] at unique
    rw [List.foldl_cons,foldl_at here_only rest _ key unique.2,here_only,List.lookup_cons]
    by_cases here : key = first
    · subst here
      have absent : rest.lookup key = none := by
        rw [← Option.not_isSome_iff_eq_none,lookup_isSome_iff]
        exact unique.1
      simp [absent]
    · have skip : (key == first) = false := by simpa using here
      simp only [if_neg here,skip]

end IndexMap
