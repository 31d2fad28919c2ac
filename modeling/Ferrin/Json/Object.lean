import Ferrin.Json
import Ferrin.Library.Assoc

/-!
Lookups after changes to a JSON object.
-/
namespace Ferrin.JsonObject
open List

/-- `Map::remove`: the last entry takes the place. -/
def swap_remove : JsonObject → String → JsonObject
  | [], _ => []
  | entry :: rest, key =>
    if entry.1 = key then
      match rest.getLast? with
      | none => []
      | some last => last :: rest.dropLast
    else entry :: swap_remove rest key

def insert_some (o : JsonObject) (key : String) (value : Option JsonValue) : JsonObject :=
  value.elim o (insert o key)

variable {o later : JsonObject} {key : String} {value : JsonValue} {entry : String × JsonValue}

theorem lookup_map_replace (other : String) :
    (o.map fun entry => if entry.1 = key then (key,value) else entry).lookup other =
      if other = key then (o.lookup key).map fun _ => value else o.lookup other := by
  induction o with
  | nil => simp
  | cons entry _ ih =>
    obtain ⟨k,v⟩ := entry
    rw [map_cons]
    by_cases here : k = key
    · subst here
      simp only [if_true]
      rw [lookup_cons,lookup_cons,lookup_cons,ih]
      by_cases same : other = k
      · simp [same]
      · have differs : (other == k) = false := by simpa using same
        simp [same,differs]
    · simp only [if_neg here]
      rw [lookup_cons,lookup_cons,lookup_cons,ih]
      by_cases same : other = k
      · subst same
        simp [here]
      · have differs : (other == k) = false := by simpa using same
        have skipped : (key == k) = false := by simpa using Ne.symm here
        simp [differs,skipped]

theorem lookup_append_entry (other : String) (absent : o.lookup key = none) : (o ++ [(key,value)]).lookup other =
      if other = key then some value else o.lookup other := by
  rw [lookup_append]
  by_cases same : other = key
  · subst same
    simp [absent]
  · have differs : (other == key) = false := by simpa using same
    simp [same,lookup_cons,differs]

theorem lookup_insert (o : JsonObject) (key other : String) (value : JsonValue) :
    (insert o key value).lookup other = if other = key then some value else o.lookup other := by
  unfold insert
  split_ifs with known same same
  · obtain ⟨_,found⟩ := Option.isSome_iff_exists.mp known
    rw [lookup_map_replace,if_pos same,found]
    rfl
  · rw [lookup_map_replace,if_neg same]
  · rw [lookup_append_entry other (Option.not_isSome_iff_eq_none.mp known),if_pos same]
  · rw [lookup_append_entry other (Option.not_isSome_iff_eq_none.mp known),if_neg same]

theorem lookup_extend (later : JsonObject) (absent : later.lookup key = none) : ∀ o : JsonObject,
    (extend o later).lookup key = o.lookup key := by
  induction later with
  | nil => exact fun _ => rfl
  | cons entry _ ih =>
    intro o
    rw [lookup_cons] at absent
    cases same : key == entry.1 with
    | true => simp [same] at absent
    | false =>
      have other : key ≠ entry.1 := by simpa using same
      rw [same] at absent
      rw [extend,foldl_cons]
      exact (ih absent (insert o entry.1 entry.2)).trans ((lookup_insert ..).trans (if_neg other))

theorem insert_insert (o : JsonObject) (key : String) (first second : JsonValue) :
    insert (insert o key first) key second = insert o key second := by
  have known : ((insert o key first).lookup key).isSome := by simp [lookup_insert]
  rw [insert,if_pos known]
  unfold insert
  split_ifs with old
  · rw [map_map]
    refine map_congr_left fun entry _ => ?_
    by_cases same : entry.1 = key <;> simp [same]
  · rw [map_append]
    have untouched : (o.map fun entry => if entry.1 = key then (key,second) else entry) = o := by
      refine (map_congr_left fun entry member => if_neg fun same => old ?_).trans (map_id _)
      rw [← same]
      exact Assoc.lookup_isSome_of_mem member
    rw [untouched]
    simp

theorem insert_of_absent (absent : o.lookup key = none) (value : JsonValue) :
    insert o key value = o ++ [(key,value)] := by
  rw [insert,absent]
  rfl

theorem insert_cons (other : entry.1 ≠ key) (o : JsonObject) (value : JsonValue) :
    insert (entry :: o) key value = entry :: insert o key value := by
  have skipped : (key == entry.1) = false := by simpa using Ne.symm other
  have same : List.lookup key (entry :: o) = o.lookup key := by rw [lookup_cons,skipped]
  unfold insert
  rw [same]
  split_ifs
  · simp [other]
  · rfl

theorem extend_cons (other : ∀ e ∈ later, entry.1 ≠ e.1) : ∀ o : JsonObject,
    extend (entry :: o) later = entry :: extend o later := by
  induction later with
  | nil => exact fun _ => rfl
  | cons first _ ih =>
    intro o
    rw [extend,foldl_cons,insert_cons (other first mem_cons_self)]
    exact ih (fun e mem => other e (mem_cons_of_mem first mem)) _

/-! ### Distinct keys -/

def Keyed (o : JsonObject) : Prop := (o.map (·.1)).Nodup

instance (o : JsonObject) : Decidable (Keyed o) := inferInstanceAs (Decidable (o.map (·.1)).Nodup)

theorem Keyed.nil : Keyed [] := List.nodup_nil

theorem keys_insert (o : JsonObject) (key : String) (value : JsonValue) :
    (insert o key value).map (·.1) = if (o.lookup key).isSome then o.map (·.1) else o.map (·.1) ++ [key] := by
  unfold insert
  split_ifs
  · rw [map_map]
    refine map_congr_left fun entry _ => ?_
    by_cases same : entry.1 = key
    · simp [same]
    · simp [same]
  · simp

theorem Keyed.insert (keyed : Keyed o) (key : String) (value : JsonValue) :
    Keyed (JsonObject.insert o key value) := by
  unfold Keyed
  rw [keys_insert]
  split_ifs with known
  · exact keyed
  · refine List.nodup_append.mpr ⟨keyed,by simp,fun name mem other same => ?_⟩
    obtain ⟨_,held,rfl⟩ := List.mem_map.mp mem
    obtain rfl := List.mem_singleton.mp same
    rintro rfl
    exact known (Assoc.lookup_isSome_of_mem held)

theorem Keyed.insert_some (keyed : Keyed o) (key : String) (value : Option JsonValue) :
    Keyed (JsonObject.insert_some o key value) := by
  cases value with
  | none => exact keyed
  | some value => exact keyed.insert key value

theorem Keyed.extend (keyed : Keyed o) (later : JsonObject) : Keyed (JsonObject.extend o later) := by
  induction later generalizing o with
  | nil => exact keyed
  | cons entry _ ih => exact ih (keyed.insert entry.1 entry.2)

theorem perm_swap_remove (keyed : Keyed o) (key : String) : (swap_remove o key).Perm (o.filter (·.1 ≠ key)) := by
  induction o with
  | nil => exact .refl _
  | cons entry rest ih =>
    obtain ⟨distinct,keyed⟩ := List.nodup_cons.mp keyed
    unfold swap_remove
    split_ifs with here
    · have kept : rest.filter (·.1 ≠ key) = rest := by
        refine List.filter_eq_self.mpr fun other mem => decide_eq_true fun same => distinct ?_
        exact List.mem_map.mpr ⟨other,mem,same.trans here.symm⟩
      rw [filter_cons_of_neg (by simpa using here),kept]
      split
      · next none_ => rw [List.getLast?_eq_none_iff.mp none_]
      · next last found =>
        have split := dropLast_append_getLast? _ found
        conv => rhs; rw [← split]
        exact (perm_append_singleton last rest.dropLast).symm
    · rw [filter_cons_of_pos (by simpa using here)]
      exact (ih keyed).cons entry

theorem Keyed.swap_remove (keyed : Keyed o) (key : String) : Keyed (JsonObject.swap_remove o key) :=
  ((perm_swap_remove keyed key).map _).nodup_iff.mpr (keyed.sublist (List.filter_sublist.map _))

theorem extend_of_keyed : ∀ {o : JsonObject}, Keyed (o ++ later) → extend o later = o ++ later := by
  induction later with
  | nil => exact fun _ => (append_nil _).symm
  | cons entry rest ih =>
    intro o keyed
    have absent : o.lookup entry.1 = none := by
      rw [Option.eq_none_iff_forall_not_mem]
      intro value held
      unfold Keyed at keyed
      rw [map_append,nodup_append] at keyed
      exact keyed.2.2 entry.1 (List.mem_map.mpr ⟨_,Assoc.mem_of_lookup held,rfl⟩) entry.1 (by simp) rfl
    have split : o ++ entry :: rest = o ++ [(entry.1,entry.2)] ++ rest := by simp
    rw [extend,foldl_cons,insert_of_absent absent]
    rw [split] at keyed ⊢
    exact ih keyed

theorem get_insert (o : JsonObject) (key other : String) (value : JsonValue) :
    get (insert o key value) other = if other = key then some value else get o other := lookup_insert o key other value

theorem get_insert_some (o : JsonObject) (key other : String) (value : Option JsonValue) :
    get (insert_some o key value) other = if other = key then value.or (get o other) else get o other := by
  cases value with
  | none => simp [insert_some]
  | some =>
    rw [insert_some,Option.elim_some,get_insert]
    rfl

theorem get_eq_some (keyed : Keyed o) : get o key = some value ↔ (key,value) ∈ o := by
  refine ⟨Assoc.mem_of_lookup,fun mem => ?_⟩
  induction o with
  | nil => cases mem
  | cons entry _ ih =>
    obtain ⟨distinct,keyed⟩ := List.nodup_cons.mp keyed
    unfold get
    rw [lookup_cons]
    rcases List.mem_cons.mp mem with rfl | later
    · simp
    · have differs : (key == entry.1) = false := by
        rw [beq_eq_false_iff_ne]
        rintro rfl
        exact distinct (List.mem_map.mpr ⟨_,later,rfl⟩)
      rw [differs]
      exact ih keyed later

theorem get_swap_remove (keyed : Keyed o) (key other : String) :
    get (swap_remove o key) other = if other = key then none else get o other := by
  have mem (value : JsonValue) : (other,value) ∈ swap_remove o key ↔ other ≠ key ∧ (other,value) ∈ o := by
    rw [(perm_swap_remove keyed key).mem_iff,mem_filter,and_comm,decide_eq_true_iff]
  refine Option.ext fun value => ?_
  rw [get_eq_some (keyed.swap_remove key),mem]
  split_ifs with same
  · simp [same]
  · simp [same,get_eq_some keyed]

theorem get_extend (o : JsonObject) (keyed : Keyed later) (key : String) :
    get (extend o later) key = (get later key).or (get o key) := by
  induction later generalizing o with
  | nil => rfl
  | cons entry rest ih =>
    obtain ⟨distinct,keyed⟩ := List.nodup_cons.mp keyed
    change get (extend (insert o entry.1 entry.2) rest) key = _
    rw [ih _ keyed,get_insert]
    conv => rhs; unfold get; rw [lookup_cons]
    by_cases same : key = entry.1
    · subst same
      have absent : get rest entry.1 = none := by
        rw [Option.eq_none_iff_forall_not_mem]
        intro value held
        exact distinct (List.mem_map.mpr ⟨_,Assoc.mem_of_lookup held,rfl⟩)
      simp [absent]
    · have differs : (key == entry.1) = false := by simpa using same
      rw [if_neg same,differs]
      rfl

theorem get_extend_of_absent (absent : ∀ entry ∈ later, entry.1 ≠ key) : get (extend o later) key = get o key := by
  induction later generalizing o with
  | nil => rfl
  | cons entry rest ih =>
    change get (extend (insert o entry.1 entry.2) rest) key = _
    rw [ih fun other mem => absent other (mem_cons_of_mem _ mem),get_insert,
      if_neg fun same => absent entry mem_cons_self same.symm]

end Ferrin.JsonObject
