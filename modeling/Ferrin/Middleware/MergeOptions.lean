import Ferrin.Json.Object
import Ferrin.Message

/-!
The merge of provider options. It goes into the objects that both sides have;
elsewhere the later side wins.
-/
namespace Ferrin
open Assoc (lookup_entry lookup_remove remove)

/-- Keys that no merge takes over. -/
def reserved_keys : List String := ["__proto__","constructor","prototype"]

mutual

/-- What the value of a key becomes: two objects are merged, and else the later value stands. -/
def merge_json_value (existing : Option JsonValue) : JsonValue → JsonValue
  | .object incoming =>
    match existing with
    | some (.object existing) => .object (merge_json_objects existing incoming)
    | _ => .object incoming
  | value => value

def merge_json_objects (merged : JsonObject) : JsonObject → JsonObject
  | [] => merged
  | (key,value) :: rest =>
    if key ∈ reserved_keys then merge_json_objects merged rest
    else merge_json_objects ((merged.swap_remove key).insert key (merge_json_value (merged.get key) value)) rest

end

/-- `BTreeMap::insert` for a key that is not there. -/
def ProviderOptions.insert : ProviderOptions → String → JsonObject → ProviderOptions
  | [], provider, options => [(provider,options)]
  | entry :: rest, provider, options =>
    if provider < entry.1 then (provider,options) :: entry :: rest
    else entry :: ProviderOptions.insert rest provider options

def merge_provider_options (base overrides : ProviderOptions) : ProviderOptions :=
  overrides.foldl (fun merged entry =>
    if entry.1 ∈ reserved_keys then merged
    else match merged.lookup entry.1 with
      | some existing => ProviderOptions.insert (remove merged entry.1) entry.1 (merge_json_objects existing entry.2)
      | none => ProviderOptions.insert merged entry.1 entry.2) base

/-! ### Objects -/

namespace JsonObject

def optionAt (o : JsonObject) : List String → Option JsonValue
  | [] => some (.object o)
  | key :: path =>
    match o.get key with
    | some (.object inner) => optionAt inner path
    | found => if path = [] then found else none

def DeepKeyed (o : JsonObject) : Prop := ∀ path inner, o.optionAt path = some (.object inner) → Keyed inner

theorem DeepKeyed.keyed {o : JsonObject} (deep : o.DeepKeyed) : Keyed o := deep [] o rfl

theorem DeepKeyed.inner {o inner : JsonObject} {key : String} (deep : o.DeepKeyed) (found : o.get key = some (.object inner)) :
    inner.DeepKeyed := by
  intro path other at_
  refine deep (key :: path) other ?_
  rw [optionAt,found]
  exact at_

end JsonObject

open JsonObject

theorem get_merge {base overrides : JsonObject} (keyed : Keyed base) (once : Keyed overrides) (key : String) :
    (merge_json_objects base overrides).get key =
      if key ∈ reserved_keys then base.get key
      else match overrides.get key with
        | some value => some (merge_json_value (base.get key) value)
        | none => base.get key := by
  induction overrides generalizing base with
  | nil => simp [merge_json_objects,JsonObject.get]
  | cons entry rest ih =>
    obtain ⟨name,value⟩ := entry
    obtain ⟨distinct,others⟩ := List.nodup_cons.mp once
    have first : JsonObject.get ((name,value) :: rest) key = if key = name then some value else JsonObject.get rest key :=
      lookup_entry _ _ _
    rw [merge_json_objects,first]
    by_cases same : key = name
    · subst same
      have absent : JsonObject.get rest key = none := Assoc.lookup_none distinct
      rw [if_pos rfl]
      split_ifs with reserved
      · rw [ih keyed others,if_pos reserved]
      · rw [ih ((keyed.swap_remove _).insert _ _) others,if_neg reserved,absent]
        simp [get_insert]
    · rw [if_neg same]
      split_ifs with reserved here here
      · rw [ih keyed others,if_pos here]
      · rw [ih keyed others,if_neg here]
      · rw [ih ((keyed.swap_remove _).insert _ _) others,if_pos here,get_insert,if_neg same,get_swap_remove keyed,if_neg same]
      · rw [ih ((keyed.swap_remove _).insert _ _) others,if_neg here,get_insert,if_neg same,get_swap_remove keyed,if_neg same]

theorem merge_json_objects_wins {path : List String} {value : JsonValue} (plain : value.as_object = none)
    (free : ∀ key ∈ path, key ∉ reserved_keys) : ∀ {base overrides : JsonObject}, base.DeepKeyed → overrides.DeepKeyed →
      overrides.optionAt path = some value → (merge_json_objects base overrides).optionAt path = some value := by
  induction path with
  | nil =>
    intro base overrides _ _ held
    cases held
    cases plain
  | cons key _ ih =>
    intro base overrides deep deep' held
    obtain ⟨free,others⟩ := List.forall_mem_cons.mp free
    rw [optionAt,get_merge deep.keyed deep'.keyed,if_neg free]
    rw [optionAt] at held
    cases found : overrides.get key with
    | none =>
      rw [found] at held
      split_ifs at held
    | some other =>
      rw [found] at held
      cases other with
      | object inner =>
        cases there : base.get key with
        | none => exact held
        | some existing =>
          cases existing with
          | object => exact ih others (deep.inner there) (deep'.inner found) held
          | _ => exact held
      | _ => exact held

def ProviderOptions.optionAt (options : ProviderOptions) (provider : String) (path : List String) : Option JsonValue :=
  (List.lookup provider options).bind (·.optionAt path)

def ProviderOptions.DeepKeyed (options : ProviderOptions) : Prop :=
  (options.map (·.1)).Nodup ∧ ∀ entry ∈ options, entry.2.DeepKeyed

theorem lookup_insert_new {options : ProviderOptions} {provider : String} (absent : options.lookup provider = none)
    (inner : JsonObject) (other : String) : (ProviderOptions.insert options provider inner).lookup other =
      if other = provider then some inner else options.lookup other := by
  induction options with
  | nil => rw [ProviderOptions.insert,lookup_entry]
  | cons _ _ ih =>
    rw [lookup_entry] at absent
    split_ifs at absent with here
    rw [ProviderOptions.insert]
    split_ifs with before same same
    · rw [lookup_entry,if_pos same]
    · rw [lookup_entry,if_neg same]
    · rw [lookup_entry,ih absent,if_pos same,if_neg (same ▸ here)]
    · rw [lookup_entry,lookup_entry,ih absent,if_neg same]

theorem lookup_merge_provider_options {overrides : ProviderOptions} (once : (overrides.map (·.1)).Nodup) {provider : String}
    (free : provider ∉ reserved_keys) : ∀ base : ProviderOptions, (merge_provider_options base overrides).lookup provider =
      match overrides.lookup provider with
      | some options => some (match base.lookup provider with
        | some existing => merge_json_objects existing options
        | none => options)
      | none => base.lookup provider := by
  induction overrides with
  | nil => intro base; rfl
  | cons entry rest ih =>
    intro base
    obtain ⟨name,options⟩ := entry
    obtain ⟨distinct,others⟩ := List.nodup_cons.mp once
    have whole : merge_provider_options base ((name,options) :: rest) = merge_provider_options
        (if name ∈ reserved_keys then base
         else match base.lookup name with
          | some existing => ProviderOptions.insert (remove base name) name (merge_json_objects existing options)
          | none => ProviderOptions.insert base name options) rest := rfl
    rw [whole,ih others,lookup_entry]
    by_cases same : provider = name
    · subst same
      rw [Assoc.lookup_none distinct,if_pos rfl,if_neg free]
      cases there : base.lookup provider with
      | none => simp [lookup_insert_new there]
      | some =>
        have gone : (remove base provider).lookup provider = none := by rw [lookup_remove,if_pos rfl]
        simp [lookup_insert_new gone]
    · have kept : (if name ∈ reserved_keys then base
         else match base.lookup name with
          | some existing => ProviderOptions.insert (remove base name) name (merge_json_objects existing options)
          | none => ProviderOptions.insert base name options).lookup provider = base.lookup provider := by
        split_ifs with reserved
        · rfl
        · cases there : base.lookup name with
          | none => simp [lookup_insert_new there,same]
          | some =>
            have gone : (remove base name).lookup name = none := by rw [lookup_remove,if_pos rfl]
            simp [lookup_insert_new gone,lookup_remove,same]
      rw [if_neg same,kept]

theorem merge_provider_options_wins {base overrides : ProviderOptions} (deep : base.DeepKeyed) (deep' : overrides.DeepKeyed)
    {provider : String} {path : List String} (free : ∀ key ∈ provider :: path, key ∉ reserved_keys) {value : JsonValue}
    (plain : value.as_object = none) (held : overrides.optionAt provider path = some value) :
    (merge_provider_options base overrides).optionAt provider path = some value := by
  obtain ⟨free,others⟩ := List.forall_mem_cons.mp free
  obtain ⟨_,found,held⟩ := Option.bind_eq_some_iff.mp held
  rw [ProviderOptions.optionAt,lookup_merge_provider_options deep'.1 free,found]
  have inside := deep'.2 _ (Assoc.mem_of_lookup found)
  cases there : base.lookup provider with
  | none => exact held
  | some => exact merge_json_objects_wins plain others (deep.2 _ (Assoc.mem_of_lookup there)) inside held

end Ferrin
