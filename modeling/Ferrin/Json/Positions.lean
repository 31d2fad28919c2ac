import Ferrin.Json.Object
import Ferrin.Library.Yields

/-!
How deep values are nested, and members of an object that are changed in place.
-/
namespace Ferrin
open List

variable {key : String} {value : JsonValue}

namespace JsonValue

mutual

/-- How deep a value is nested. -/
def depth : JsonValue → Nat
  | .array items => depthItems items + 1
  | .object entries => depthEntries entries + 1
  | _ => 0

def depthItems : List JsonValue → Nat
  | [] => 0
  | item :: rest => max (depth item) (depthItems rest)

def depthEntries : JsonObject → Nat
  | [] => 0
  | (_,value) :: rest => max (depth value) (depthEntries rest)

end

variable {items : List JsonValue} {d : Nat} {entries object : JsonObject}

theorem depthItems_le : depthItems items ≤ d ↔ ∀ item ∈ items, depth item ≤ d := by
  induction items with
  | nil => simp [depthItems]
  | cons _ _ ih => simp [depthItems,ih]

theorem depthEntries_le : depthEntries entries ≤ d ↔ ∀ entry ∈ entries, depth entry.2 ≤ d := by
  induction entries with
  | nil => simp [depthEntries]
  | cons _ _ ih => simp [depthEntries,ih]

theorem depth_item {item : JsonValue} (mem : item ∈ items) : depth item < depth (.array items) :=
  Nat.lt_succ_of_le (depthItems_le.mp (Nat.le_refl _) _ mem)

theorem depth_entry {entry : String × JsonValue} (mem : entry ∈ object) : depth entry.2 < depth (.object object) :=
  Nat.lt_succ_of_le (depthEntries_le.mp (Nat.le_refl _) _ mem)

theorem depth_get (held : object.get key = some value) :
    depth value < depth (.object object) := depth_entry (Assoc.mem_of_lookup held)

def is_array : JsonValue → Bool
  | .array _ => true
  | _ => false

/-- Every object in the value has distinct keys, as a `Map` does. -/
inductive Keyed : JsonValue → Prop where
  | null : Keyed .null
  | bool (value : Bool) : Keyed (.bool value)
  | number (value : JsonNumber) : Keyed (.number value)
  | string (value : String) : Keyed (.string value)
  | array {items : List JsonValue} : (∀ item ∈ items, Keyed item) → Keyed (.array items)
  | object {entries : JsonObject} : entries.Keyed → (∀ entry ∈ entries, Keyed entry.2) → Keyed (.object entries)

@[simp] theorem keyed_string (text : String) : Keyed (.string text) := .string text

@[simp] theorem keyed_array : Keyed (.array items) ↔ ∀ item ∈ items, Keyed item := by
  constructor
  · rintro (_ | _ | _ | _ | each)
    exact each
  · exact .array

@[simp] theorem keyed_object : Keyed (.object entries) ↔ entries.Keyed ∧ ∀ entry ∈ entries, Keyed entry.2 := by
  constructor
  · rintro (_ | _ | _ | _ | _ | ⟨distinct,each⟩)
    exact ⟨distinct,each⟩
  · exact fun ⟨distinct,each⟩ => .object distinct each

theorem Keyed.item (keyed : Keyed (.array items)) : ∀ item ∈ items, Keyed item := keyed_array.mp keyed

theorem Keyed.keys (keyed : Keyed (.object entries)) : entries.Keyed :=
  (keyed_object.mp keyed).1

theorem Keyed.entry (keyed : Keyed (.object entries)) : ∀ entry ∈ entries, Keyed entry.2 :=
  (keyed_object.mp keyed).2

theorem Keyed.get (keyed : Keyed (.object entries))
    (held : entries.get key = some value) : Keyed value := keyed.entry _ (Assoc.mem_of_lookup held)

end JsonValue

namespace JsonObject
open Library

/-! ### Changes in place -/

/-- A change through `get_mut`. -/
def modify (o : JsonObject) (key : String) (change : JsonValue → JsonValue) : JsonObject :=
  match o.get key with
  | some value => o.insert key (change value)
  | none => o

/-- A change through `get_mut` with effects. -/
def modifyM {m : Type → Type} [Monad m] (o : JsonObject) (key : String) (change : JsonValue → m JsonValue) : m JsonObject :=
  match o.get key with
  | some value => o.insert key <$> change value
  | none => pure o

theorem get_map (change : JsonValue → JsonValue) (o : JsonObject) (key : String) :
    get (o.map fun (name,value) => (name,change value)) key = (o.get key).map change := by
  unfold get
  induction o with
  | nil => rfl
  | cons entry _ ih =>
    rw [map_cons,lookup_cons,lookup_cons]
    cases key == entry.1 with
    | true => rfl
    | false => exact ih

variable {o : JsonObject}

theorem keys_insert_of_some (held : o.get key = some value)
    (next : JsonValue) : (o.insert key next).map (·.1) = o.map (·.1) := by
  rw [keys_insert,if_pos]
  rw [show o.lookup key = some value from held]
  rfl

theorem insert_self (keyed : Keyed o) (held : o.get key = some value) : o.insert key value = o := by
  rw [insert,if_pos (by rw [show o.lookup key = some value from held]; rfl)]
  refine (map_congr_left fun entry member => ?_).trans (map_id _)
  split_ifs with same
  · obtain ⟨_,_⟩ := entry
    subst same
    rw [Option.some.inj (held.symm.trans ((get_eq_some keyed).mpr member))]
    rfl
  · rfl

structure Changed (R : String → JsonValue → JsonValue → Prop) (o o' : JsonObject) : Prop where
  keys : o'.map (·.1) = o.map (·.1)
  values : ∀ key, Option.Rel (R key) (o.get key) (o'.get key)

section
variable {R : String → JsonValue → JsonValue → Prop} {o o' : JsonObject} {key : String} {value : JsonValue}

theorem Changed.of_none (changed : Changed R o o') (absent : o.get key = none) : o'.get key = none := by
  have related := changed.values key
  rw [absent] at related
  cases found : o'.get key with
  | none => rfl
  | some =>
    rw [found] at related
    cases related

theorem Changed.of_some (changed : Changed R o o') (held : o.get key = some value) :
    ∃ value', o'.get key = some value' ∧ R key value value' := by
  have related := changed.values key
  rw [held] at related
  cases found : o'.get key with
  | none =>
    rw [found] at related
    cases related
  | some value' =>
    rw [found] at related
    cases related with
    | some related => exact ⟨value',rfl,related⟩

theorem Changed.before (changed : Changed R o o') (held : o'.get key = some value) :
    ∃ value', o.get key = some value' ∧ R key value' value := by
  cases found : o.get key with
  | none =>
    rw [changed.of_none found] at held
    cases held
  | some value' =>
    obtain ⟨_,at_,related⟩ := changed.of_some found
    obtain rfl := Option.some.inj (at_.symm.trans held)
    exact ⟨value',rfl,related⟩

theorem Changed.same (changed : Changed R o o') (equal : ∀ v v', R key v v' → v' = v) : o'.get key = o.get key := by
  cases found : o.get key with
  | none => exact changed.of_none found
  | some =>
    obtain ⟨_,held,related⟩ := changed.of_some found
    rw [held,equal _ _ related]

theorem Changed.refl (equal : ∀ key v, R key v v) (o : JsonObject) : Changed R o o := by
  refine ⟨rfl,fun key => ?_⟩
  cases o.get key with
  | none => exact .none
  | some value => exact .some (equal key value)

theorem Changed.trans {R₁ R₂ : String → JsonValue → JsonValue → Prop} {o'' : JsonObject} (first : Changed R₁ o o')
    (second : Changed R₂ o' o'') (composes : ∀ key v v' v'', R₁ key v v' → R₂ key v' v'' → R key v v'') : Changed R o o'' := by
  refine ⟨second.keys.trans first.keys,fun key => ?_⟩
  cases held : o.get key with
  | none =>
    rw [second.of_none (first.of_none held)]
    exact .none
  | some =>
    obtain ⟨_,held',related⟩ := first.of_some held
    obtain ⟨_,held'',related'⟩ := second.of_some held'
    rw [held'']
    exact .some (composes key _ _ _ related related')

theorem Changed.mono {R' : String → JsonValue → JsonValue → Prop} (changed : Changed R o o')
    (weaker : ∀ key v v', R key v v' → R' key v v') : Changed R' o o' :=
  changed.trans (.refl (R := fun _ => Eq) (fun _ _ => rfl) o') fun key v v' _ related same => same ▸ weaker key v v' related

theorem Changed.insert {next : JsonValue} (held : o.get key = some value) (own : R key value next)
    (others : ∀ other, other ≠ key → ∀ v, R other v v) : Changed R o (o.insert key next) := by
  refine ⟨keys_insert_of_some held next,fun other => ?_⟩
  rw [get_insert]
  by_cases same : other = key
  · subst same
    rw [if_pos rfl,held]
    exact .some own
  · rw [if_neg same]
    cases o.get other with
    | none => exact .none
    | some v => exact .some (others other same v)

theorem Changed.keyed (changed : Changed R o o') (keyed : Keyed o) : Keyed o' := by
  unfold Keyed
  rw [changed.keys]
  exact keyed

end

theorem get_modify (o : JsonObject) (key other : String) (change : JsonValue → JsonValue) :
    (o.modify key change).get other = if other = key then (o.get key).map change else o.get other := by
  unfold modify
  cases held : o.get key with
  | none =>
    by_cases same : other = key
    · simp [same,held]
    · simp [same]
  | some =>
    simp only [get_insert]
    split_ifs <;> simp

theorem keys_modify (o : JsonObject) (key : String) (change : JsonValue → JsonValue) :
    (o.modify key change).map (·.1) = o.map (·.1) := by
  unfold modify
  cases held : o.get key with
  | none => rfl
  | some => exact keys_insert_of_some held _

theorem foldl_modify {changes : String → JsonValue → JsonValue} : ∀ {keys : List String}, keys.Nodup → ∀ o : JsonObject,
    ((keys.foldl (fun o key => o.modify key (changes key)) o).map (·.1) = o.map (·.1)) ∧
    ∀ other, (keys.foldl (fun o key => o.modify key (changes key)) o).get other =
      if other ∈ keys then (o.get other).map (changes other) else o.get other
  | [],_,o => ⟨rfl,fun other => by simp⟩
  | key :: rest,distinct,o => by
    obtain ⟨fresh,distinct⟩ := List.nodup_cons.mp distinct
    obtain ⟨keys,values⟩ := foldl_modify distinct (o.modify key (changes key))
    refine ⟨keys.trans (keys_modify ..),fun other => ?_⟩
    rw [foldl_cons,values other,get_modify]
    by_cases same : other = key
    · subst same
      simp [fresh]
    · simp [same]

section
variable {m : Type → Type} [Monad m] [LawfulMonad m] {keys : List String} {changes : String → JsonValue → m JsonValue}

theorem yields_foldlM_modifyM {R : String → JsonValue → JsonValue → Prop} : ∀ {keys : List String}, keys.Nodup →
    ∀ o : JsonObject, (∀ key ∈ keys, ∀ value, o.get key = some value → Yields (R key value) (changes key value)) →
    Yields (Changed (fun key => if key ∈ keys then R key else Eq) o)
      (keys.foldlM (fun o key => o.modifyM key (changes key)) o)
  | [],_,o,_ => .pure (.refl (fun _ _ => rfl) o)
  | key :: rest,distinct,o,each => by
    obtain ⟨fresh,distinct⟩ := List.nodup_cons.mp distinct
    have first : Yields (Changed (fun name => if name = key then R name else Eq) o) (o.modifyM key (changes key)) := by
      unfold modifyM
      cases held : o.get key with
      | none =>
        refine .pure ⟨rfl,fun other => ?_⟩
        by_cases same : other = key
        · rw [same,held]
          exact .none
        · rw [if_neg same]
          exact (Changed.refl (fun _ _ => rfl) o).values other
      | some value =>
        refine (each key mem_cons_self value held).map fun next related => .insert held ?_ fun other same v => ?_
        · rwa [if_pos rfl]
        · rw [if_neg same]
    rw [foldlM_cons]
    refine first.bind fun next changed => ?_
    have rest_yields : Yields (Changed (fun name => if name ∈ rest then R name else Eq) next)
        (rest.foldlM (fun o key => o.modifyM key (changes key)) next) := by
      refine yields_foldlM_modifyM distinct next fun other mem value held => ?_
      have differs : other ≠ key := fun same => fresh (same ▸ mem)
      rw [changed.same fun v v' related => by rw [if_neg differs] at related; exact related.symm] at held
      exact each other (mem_cons_of_mem _ mem) value held
    refine rest_yields.mono fun last later => changed.trans later fun name v v' v'' first second => ?_
    by_cases same : name = key
    · subst same
      rw [if_pos rfl] at first
      rw [if_neg fresh] at second
      rw [if_pos mem_cons_self,← second]
      exact first
    · rw [if_neg same] at first
      subst first
      simpa [same] using second

theorem foldlM_modifyM_pure (keyed : Keyed o)
    (each : ∀ key ∈ keys, ∀ value, o.get key = some value → changes key value = pure value) :
    keys.foldlM (fun o key => o.modifyM key (changes key)) o = pure o := by
  induction keys with
  | nil => rfl
  | cons key _ ih =>
    have first : o.modifyM key (changes key) = pure o := by
      unfold modifyM
      cases held : o.get key with
      | none => rfl
      | some value =>
        change insert o key <$> changes key value = pure o
        rw [each key mem_cons_self value held,map_pure,insert_self keyed held]
    rw [foldlM_cons,first,pure_bind]
    exact ih fun other mem => each other (mem_cons_of_mem _ mem)

end

end JsonObject

end Ferrin
