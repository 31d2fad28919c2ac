import Ferrin.LanguageModel
import Ferrin.Schema.TransformRefs
import Mathlib

/-!
The normalization of JSON schemas for OpenAI. `propertyNames` is removed at the
schema positions that the keyword lists name, and refused where it is no string
schema. The lists miss four keywords with schemas (`normalizes_iff`).
-/
namespace Ferrin.OpenAi.JsonSchema
open JsonValue (as_str depth_entry is_array)
open List (all_cons filterMap_cons flatMap_cons flatMap_eq_nil_iff forall_mem_cons map_cons mem_cons_self mem_flatMap mem_map mem_singleton)

structure UnsupportedFunctionalityError where
  functionality : String
  message : String

def UnsupportedFunctionalityError.new (functionality : String) : UnsupportedFunctionalityError :=
  ⟨functionality,"`" ++ functionality ++ "` functionality not supported"⟩

def RECORD_KEYWORDS : List String := ["properties","patternProperties","definitions","$defs"]

def SINGLE_KEYWORDS : List String := ["additionalProperties","additionalItems","contains","not","if","then","else"]

def LIST_KEYWORDS : List String := ["allOf","anyOf","oneOf"]

/-- A computation that notes whether something was removed. -/
abbrev Removing := StateT Bool (Except UnsupportedFunctionalityError)

def is_string_schema (names : JsonValue) : Bool :=
  (names.as_object.bind (JsonObject.get · "type")).bind as_str = some "string"

def refusal : UnsupportedFunctionalityError := .new "JSON Schema propertyNames that does not use a string schema"

mutual

def normalize : JsonValue → Removing JsonValue
  | .object object => do return .object (← normalize_members object [])
  | schema => return schema

def normalize_members : JsonObject → JsonObject → Removing JsonObject
  | [], out => return out
  | (key,value) :: rest, out =>
    if key = "propertyNames" then
      if is_string_schema value then do
        set true
        normalize_members rest out
      else throw refusal
    else if key ∈ RECORD_KEYWORDS then do normalize_members rest (out.insert key (← normalize_record value))
    else if key ∈ SINGLE_KEYWORDS then do normalize_members rest (out.insert key (← normalize value))
    else if key ∈ LIST_KEYWORDS then do normalize_members rest (out.insert key (← normalize_list value))
    else if key = "items" then do
      let items ← if value.is_array then normalize_list value else normalize value
      normalize_members rest (out.insert key items)
    else if key = "dependencies" then do normalize_members rest (out.insert key (← normalize_dependencies value))
    else normalize_members rest (out.insert key value)

def normalize_record : JsonValue → Removing JsonValue
  | .object record => do return .object (← normalize_values false record [])
  | value => return value

/-- The branch of `dependencies`, whose arrays are names of properties. -/
def normalize_dependencies : JsonValue → Removing JsonValue
  | .object deps => do return .object (← normalize_values true deps [])
  | value => return value

def normalize_values (names_allowed : Bool) : JsonObject → JsonObject → Removing JsonObject
  | [], out => return out
  | (name,schema) :: rest, out => do
    let mapped ← if names_allowed && schema.is_array then pure schema else normalize schema
    normalize_values names_allowed rest (out.insert name mapped)

def normalize_list : JsonValue → Removing JsonValue
  | .array list => do return .array (← normalize_items list)
  | value => return value

def normalize_items : List JsonValue → Removing (List JsonValue)
  | [] => return []
  | schema :: rest => do return (← normalize schema) :: (← normalize_items rest)

end

def compatibility : Warning := .Compatibility "JSON Schema propertyNames" (some
  ("OpenAI does not support JSON Schema propertyNames. It was removed before sending " ++
    "the schema, so OpenAI will not enforce property-name constraints."))

def normalize_json_schema (schema : JsonValue) : Except UnsupportedFunctionalityError (JsonValue × List Warning) := do
  let (normalized,removed) ← (normalize schema).run false
  return (normalized,if removed then [compatibility] else [])

/-! ### Schema positions -/

inductive Place where
  | Names
  | Record
  | Single
  | List
  | Mixed
  | Data
  deriving DecidableEq

def childrenAt : Place → JsonValue → List JsonValue
  | .Record, .object entries => entries.map (·.2)
  | .Single, value => [value]
  | .List, .array items => items
  | .Mixed, .array items => items
  | .Mixed, value => [value]
  | _, _ => []

def mapAt (f : JsonValue → JsonValue) : Place → JsonValue → JsonValue
  | .Record, .object entries => .object (entries.map fun entry => (entry.1,f entry.2))
  | .Single, value => f value
  | .List, .array items => .array (items.map f)
  | .Mixed, .array items => .array (items.map f)
  | .Mixed, value => f value
  | _, value => value

mutual

/-- A schema without the property names at the places of a vocabulary. -/
def strip (p : String → Place) : JsonValue → JsonValue
  | .object object => .object (stripMembers p object)
  | value => value

def stripMembers (p : String → Place) : JsonObject → JsonObject
  | [] => []
  | (key,value) :: rest => match p key with
    | .Names => stripMembers p rest
    | .Record => (key,stripRecord p value) :: stripMembers p rest
    | .Single => (key,strip p value) :: stripMembers p rest
    | .List => (key,stripList p value) :: stripMembers p rest
    | .Mixed => (key,if value.is_array then stripList p value else strip p value) :: stripMembers p rest
    | .Data => (key,value) :: stripMembers p rest

def stripRecord (p : String → Place) : JsonValue → JsonValue
  | .object entries => .object (stripValues p entries)
  | value => value

def stripValues (p : String → Place) : JsonObject → JsonObject
  | [] => []
  | (name,schema) :: rest => (name,strip p schema) :: stripValues p rest

def stripList (p : String → Place) : JsonValue → JsonValue
  | .array items => .array (stripItems p items)
  | value => value

def stripItems (p : String → Place) : List JsonValue → List JsonValue
  | [] => []
  | schema :: rest => strip p schema :: stripItems p rest

end

mutual

/-- The property names at the places of a vocabulary, those inside of property names only where it goes deep. -/
def found (p : String → Place) (deep : Bool) : JsonValue → List JsonValue
  | .object object => foundMembers p deep object
  | _ => []

def foundMembers (p : String → Place) (deep : Bool) : JsonObject → List JsonValue
  | [] => []
  | (key,value) :: rest => (match p key with
    | .Names => value :: if deep then found p deep value else []
    | .Record => foundRecord p deep value
    | .Single => found p deep value
    | .List => foundList p deep value
    | .Mixed => if value.is_array then foundList p deep value else found p deep value
    | .Data => []) ++ foundMembers p deep rest

def foundRecord (p : String → Place) (deep : Bool) : JsonValue → List JsonValue
  | .object entries => foundValues p deep entries
  | _ => []

def foundValues (p : String → Place) (deep : Bool) : JsonObject → List JsonValue
  | [] => []
  | (_,schema) :: rest => found p deep schema ++ foundValues p deep rest

def foundList (p : String → Place) (deep : Bool) : JsonValue → List JsonValue
  | .array items => foundItems p deep items
  | _ => []

def foundItems (p : String → Place) (deep : Bool) : List JsonValue → List JsonValue
  | [] => []
  | schema :: rest => found p deep schema ++ foundItems p deep rest

end

def known (key : String) : Place :=
  if key = "propertyNames" then .Names
  else if key ∈ RECORD_KEYWORDS then .Record
  else if key ∈ SINGLE_KEYWORDS then .Single
  else if key ∈ LIST_KEYWORDS then .List
  else if key = "items" then .Mixed
  else if key = "dependencies" then .Record
  else .Data

def vocabulary (key : String) : Place :=
  if key = "prefixItems" then .List
  else if key = "dependentSchemas" then .Record
  else if key = "unevaluatedItems" ∨ key = "unevaluatedProperties" then .Single
  else known key

variable {place : Place} {value child : JsonValue} {out rest : JsonObject} {key : String}

section
variable {p q : String → Place} {deep : Bool}

def stripMember (p : String → Place) (member : String × JsonValue) : Option (String × JsonValue) :=
  if p member.1 = .Names then none else some (member.1,mapAt (strip p) (p member.1) member.2)

def foundMember (p : String → Place) (deep : Bool) (member : String × JsonValue) : List JsonValue :=
  if p member.1 = .Names then member.2 :: if deep then found p deep member.2 else []
  else (childrenAt (p member.1) member.2).flatMap (found p deep)

variable {member : String × JsonValue}

theorem foundMember_names (names : p member.1 = .Names) : foundMember p false member = [member.2] := by
  rw [foundMember,if_pos names]
  rfl

theorem foundMember_other (other : p member.1 ≠ .Names) :
    foundMember p deep member = (childrenAt (p member.1) member.2).flatMap (found p deep) := if_neg other

theorem foundMember_data (data : p member.1 = .Data) : foundMember p deep member = [] := by
  rw [foundMember_other (by simp [data]),data]
  cases member.2 <;> rfl

theorem stripValues_eq (entries : JsonObject) : stripValues p entries = entries.map fun entry => (entry.1,strip p entry.2) := by
  induction entries with
  | nil => rfl
  | cons _ _ ih => rw [stripValues,ih,map_cons]

theorem stripItems_eq (items : List JsonValue) : stripItems p items = items.map (strip p) := by
  induction items with
  | nil => rfl
  | cons _ _ ih => rw [stripItems,ih,map_cons]

variable (object : JsonObject)

theorem stripMembers_eq : stripMembers p object = object.filterMap (stripMember p) := by
  induction object with
  | nil => rfl
  | cons member _ ih =>
    obtain ⟨key,value⟩ := member
    rw [stripMembers,ih,filterMap_cons,stripMember]
    cases place : p key with
    | Names | Single | Data => simp [mapAt]
    | Record => cases value <;> simp [mapAt,stripRecord,stripValues_eq]
    | List => cases value <;> simp [mapAt,stripList,stripItems_eq]
    | Mixed => cases value <;> simp [mapAt,stripList,stripItems_eq,is_array]

@[simp] theorem strip_object : strip p (.object object) = .object (object.filterMap (stripMember p)) := by
  rw [strip,stripMembers_eq]

theorem foundValues_eq (entries : JsonObject) :
    foundValues p deep entries = (entries.map (·.2)).flatMap (found p deep) := by
  induction entries with
  | nil => rfl
  | cons _ _ ih => rw [foundValues,ih,map_cons,flatMap_cons]

theorem foundItems_eq (items : List JsonValue) : foundItems p deep items = items.flatMap (found p deep) := by
  induction items with
  | nil => rfl
  | cons _ _ ih => rw [foundItems,ih,flatMap_cons]

@[simp] theorem found_object : found p deep (.object object) = object.flatMap (foundMember p deep) := by
  rw [found]
  induction object with
  | nil => rfl
  | cons member _ ih =>
    obtain ⟨key,value⟩ := member
    rw [foundMembers,ih,flatMap_cons,foundMember]
    cases place : p key with
    | Names | Single | Data => simp [childrenAt]
    | Record => cases value <;> simp [childrenAt,foundRecord,foundValues_eq]
    | List => cases value <;> simp [childrenAt,foundList,foundItems_eq]
    | Mixed => cases value <;> simp [childrenAt,foundList,foundItems_eq,is_array]

theorem depth_childrenAt (member : child ∈ childrenAt place value) : child.depth ≤ value.depth := by
  cases place <;> cases value <;> simp only [childrenAt,List.not_mem_nil,mem_singleton,mem_map] at member
  all_goals first
    | exact member ▸ Nat.le_refl _
    | exact Nat.le_of_lt (JsonValue.depth_item member)
    | obtain ⟨_,held,rfl⟩ := member; exact Nat.le_of_lt (depth_entry held)

/-- What holds of an object when it holds of all that stands at places of its members holds of every value. -/
theorem place_induction {P : JsonValue → Prop} (other : ∀ value, value.as_object = none → P value)
    (object : ∀ members : JsonObject, (∀ member ∈ members, ∀ place, ∀ child ∈ childrenAt place member.2, P child) →
      P (.object members)) (value : JsonValue) : P value := by
  suffices bounded : ∀ depth (value : JsonValue), value.depth ≤ depth → P value from bounded _ value (Nat.le_refl _)
  intro depth
  induction depth with
  | zero =>
    intro value flat
    cases value with
    | object => exact absurd flat (by simp [JsonValue.depth])
    | _ => exact other _ rfl
  | succ _ ih =>
    intro value flat
    cases value with
    | object members =>
      refine object members fun member held place child inside => ih child ?_
      have below := depth_entry held
      have least := depth_childrenAt inside
      omega
    | _ => exact other _ rfl

theorem strip_other (other : value.as_object = none) : strip p value = value := by
  cases value with
  | object => cases other
  | _ => rfl

theorem found_other (other : value.as_object = none) : found p deep value = [] := by
  cases value with
  | object => cases other
  | _ => rfl

section
variable {place : Place} {value : JsonValue} {f g : JsonValue → JsonValue}

theorem mixed_other (single : value.is_array = false) : childrenAt .Mixed value = [value] ∧ mapAt f .Mixed value = f value := by
  cases value with
  | array => cases single
  | _ => exact ⟨rfl,rfl⟩

theorem childrenAt_mapAt (arrays : ∀ w, (f w).is_array = w.is_array) :
    childrenAt place (mapAt f place value) = (childrenAt place value).map f := by
  cases place with
  | Mixed =>
    cases single : value.is_array with
    | true =>
      cases value with
      | array => rfl
      | _ => cases single
    | false =>
      rw [(mixed_other single).2,(@mixed_other _ f ((arrays value).trans single)).1,(@mixed_other value f single).1]
      rfl
  | Record => cases value <;> simp [childrenAt,mapAt]
  | _ => cases value <;> rfl

theorem mapAt_mapAt (arrays : ∀ w, (f w).is_array = w.is_array) :
    mapAt g place (mapAt f place value) = mapAt (fun w => g (f w)) place value := by
  cases place with
  | Mixed =>
    cases single : value.is_array with
    | true =>
      cases value with
      | array => simp [mapAt]
      | _ => cases single
    | false => rw [(mixed_other single).2,(mixed_other ((arrays value).trans single)).2,(mixed_other single).2]
  | Record => cases value <;> simp [mapAt]
  | _ => cases value <;> simp [mapAt]

theorem mapAt_congr (same : ∀ child ∈ childrenAt place value, f child = g child) : mapAt f place value = mapAt g place value := by
  cases place with
  | Record =>
    cases value with
    | object =>
      refine congrArg JsonValue.object (List.map_congr_left fun entry held => ?_)
      rw [same entry.2 (mem_map.mpr ⟨entry,held,rfl⟩)]
    | _ => rfl
  | _ => cases value <;> simp_all [childrenAt,mapAt]

theorem mapAt_self (same : ∀ child ∈ childrenAt place value, f child = child) : mapAt f place value = value := by
  have plain : mapAt id place value = value := by cases place <;> cases value <;> simp [mapAt]
  exact (mapAt_congr same).trans plain

end

end

/-! ### Stripping and finding -/

section
variable {p q : String → Place} {deep : Bool}

theorem strip_is_array (value : JsonValue) : (strip p value).is_array = value.is_array := by
  cases value <;> rfl

theorem strip_children : childrenAt place (mapAt (strip p) place value) = (childrenAt place value).map (strip p) :=
  childrenAt_mapAt strip_is_array

theorem found_strip (value : JsonValue) : found p false (strip p value) = [] := by
  induction value using place_induction with
  | other _ other => rw [strip_other other,found_other other]
  | object _ ih =>
    rw [strip_object,found_object,flatMap_eq_nil_iff]
    intro after kept
    obtain ⟨member,held,same⟩ := List.mem_filterMap.mp kept
    rw [stripMember] at same
    split_ifs at same with names
    cases same
    rw [foundMember,if_neg names,strip_children,flatMap_eq_nil_iff]
    intro child inside
    obtain ⟨before,stood,rfl⟩ := mem_map.mp inside
    exact ih member held _ before stood

theorem strip_of_found (value : JsonValue) : found p false value = [] → strip p value = value := by
  induction value using place_induction with
  | other _ other => exact fun _ => strip_other other
  | object members ih =>
    rw [found_object,strip_object,flatMap_eq_nil_iff]
    intro none_found
    have kept : ∀ member ∈ members, stripMember p member = some member := by
      intro member held
      have nothing := none_found member held
      rw [foundMember] at nothing
      split_ifs at nothing with names
      rw [stripMember,if_neg names]
      rw [flatMap_eq_nil_iff] at nothing
      rw [mapAt_self fun child inside => ih member held _ child inside (nothing child inside)]
    rw [List.filterMap_congr kept,List.filterMap_some]

theorem found_iff_changed (value : JsonValue) : found p false value ≠ [] ↔ strip p value ≠ value := by
  refine not_congr ⟨strip_of_found value,fun same => ?_⟩
  rw [← same]
  exact found_strip value

/-- One vocabulary knows no more than another. -/
def Within (p q : String → Place) : Prop := ∀ key, p key = q key ∨ p key = .Data

theorem strip_strip (within : Within p q) (value : JsonValue) : strip q (strip p value) = strip q value := by
  induction value using place_induction with
  | other _ other => rw [strip_other other]
  | object _ ih =>
    rw [strip_object,strip_object,strip_object,List.filterMap_filterMap]
    refine congrArg JsonValue.object (List.filterMap_congr fun member held => ?_)
    rcases within member.1 with same | data
    · by_cases names : p member.1 = .Names
      · rw [stripMember,if_pos names,stripMember,if_pos (same ▸ names)]
        rfl
      · rw [stripMember,if_neg names,Option.bind_some,stripMember,stripMember,if_neg (same ▸ names),if_neg (same ▸ names)]
        dsimp only
        rw [same,mapAt_mapAt strip_is_array,mapAt_congr fun child inside => ih member held _ child inside]
    · rw [stripMember,if_neg (by simp [data]),data,Option.bind_some]
      rfl

variable {α β : Type} {f g : α → List β} {l : List α}

theorem found_sublist (within : Within p q) (value : JsonValue) : List.Sublist (found p false value) (found q false value) := by
  induction value using place_induction with
  | other _ other => rw [found_other other]; exact List.nil_sublist _
  | object _ ih =>
    rw [found_object,found_object]
    refine List.Sublist.flatMap_right _ fun member held => ?_
    rcases within member.1 with same | data
    · by_cases names : p member.1 = .Names
      · rw [foundMember_names names,foundMember_names (same ▸ names)]
      · rw [foundMember_other names,foundMember_other (same ▸ names),same]
        exact List.Sublist.flatMap_right _ fun child inside => ih member held _ child inside
    · rw [foundMember_data data]
      exact List.nil_sublist _

theorem flatMap_filterMap {γ : Type} (f : α → Option β) (g : β → List γ) (l : List α) :
    (l.filterMap f).flatMap g = l.flatMap fun a => (f a).elim [] g := by
  induction l with
  | nil => rfl
  | cons a _ ih =>
    rw [filterMap_cons,flatMap_cons,← ih]
    cases f a <;> rfl

theorem length_flatMap_add {h : α → List β} (each : ∀ a ∈ l, (f a).length = (g a).length + (h a).length) :
    (l.flatMap f).length = (l.flatMap g).length + (l.flatMap h).length := by
  induction l with
  | nil => rfl
  | cons _ _ ih =>
    rw [forall_mem_cons] at each
    have first := each.1
    have later := ih each.2
    simp only [flatMap_cons,List.length_append]
    omega

theorem length_found (within : Within p q) (value : JsonValue) :
    (found q false value).length = (found p false value).length + (found q false (strip p value)).length := by
  induction value using place_induction with
  | other _ other => rw [strip_other other,found_other other,found_other other]; rfl
  | object members ih =>
    rw [strip_object,found_object,found_object,found_object]
    have each : ∀ member ∈ members, (foundMember q false member).length = (foundMember p false member).length +
        ((stripMember p member).elim [] (foundMember q false)).length := by
      intro member held
      rcases within member.1 with same | data
      · by_cases names : p member.1 = .Names
        · rw [foundMember_names names,foundMember_names (same ▸ names),stripMember,if_pos names]
          rfl
        · rw [stripMember,if_neg names,Option.elim_some,foundMember_other names,foundMember_other (same ▸ names),
            foundMember_other (same ▸ names)]
          dsimp only
          rw [same,strip_children,List.flatMap_map]
          exact length_flatMap_add fun child inside => ih member held _ child inside
      · rw [foundMember_data data,stripMember,if_neg (by simp [data]),Option.elim_some,data]
        exact (Nat.zero_add _).symm
    rw [flatMap_filterMap]
    exact length_flatMap_add each

theorem found_deep (within : Within p q) (value : JsonValue) : found p false value ⊆ found q true value := by
  induction value using place_induction with
  | other _ other => rw [found_other other]; exact List.nil_subset _
  | object _ ih =>
    rw [found_object,found_object]
    intro names inside
    obtain ⟨member,held,stands⟩ := mem_flatMap.mp inside
    refine mem_flatMap.mpr ⟨member,held,?_⟩
    rcases within member.1 with same | data
    · by_cases here : p member.1 = .Names
      · rw [foundMember_names here] at stands
        cases mem_singleton.mp stands
        rw [foundMember,if_pos (same ▸ here)]
        exact mem_cons_self
      · rw [foundMember_other here,same] at stands
        rw [foundMember_other (same ▸ here)]
        obtain ⟨child,at_child,below⟩ := mem_flatMap.mp stands
        exact mem_flatMap.mpr ⟨child,at_child,ih member held _ child at_child below⟩
    · rw [foundMember_data data] at stands
      cases stands

end

section
variable {α β : Type} {names later : List JsonValue}

/-- The outcome of a computation that meets some property names on its way to a value. -/
def verdict (names : List JsonValue) (a : α) : Removing α := fun removed =>
  if names.all is_string_schema then .ok (a,removed || !names.isEmpty) else .error refusal

theorem pure_verdict (a : α) : (pure a : Removing α) = verdict [] a := by
  funext removed
  simp [verdict,pure,StateT.pure,Except.pure]

theorem verdict_bind {a : α} {b : β} {k : α → Removing β} (next : k a = verdict later b) :
    (verdict names a >>= k) = verdict (names ++ later) b := by
  funext removed
  simp only [bind,StateT.bind,verdict]
  by_cases all : names.all is_string_schema = true
  · rw [if_pos all]
    simp only [Except.bind,next,verdict,List.all_append,all,Bool.true_and]
    cases names <;> simp
  · rw [if_neg all,if_neg (by simp only [List.all_append,Bool.and_eq_true]; exact fun both => all both.1)]
    rfl

theorem verdict_map (f : α → β) (a : α) : (verdict names a >>= fun a => pure (f a)) = verdict names (f a) := by
  have whole := @verdict_bind α β names [] a (f a) (fun a => pure (f a)) (pure_verdict (f a))
  rwa [List.append_nil] at whole

theorem verdict_names {b : β} {rest : Removing β} (next : rest = verdict later b) :
    (if is_string_schema value then (do set true; rest) else throw refusal : Removing β) = verdict (value :: later) b := by
  subst next
  by_cases accepted : is_string_schema value = true
  · rw [if_pos accepted]
    funext removed
    simp only [set,StateT.set,bind,StateT.bind,Except.bind,pure,Except.pure,verdict,all_cons,accepted,Bool.true_and]
    simp
  · rw [if_neg accepted]
    funext removed
    simp only [verdict,all_cons,Bool.and_eq_true,accepted]
    rfl

end

/-- A value whose schemas the normalization strips, noting what it finds. -/
def Turned (value : JsonValue) : Prop := normalize value = verdict (found known false value) (strip known value)

theorem lookup_fresh (keyed : (out ++ (key,value) :: rest).Keyed) : out.lookup key = none := by
  rw [JsonObject.Keyed,List.map_append,map_cons,List.nodup_middle,List.nodup_cons,List.mem_append,not_or] at keyed
  rw [← Option.not_isSome_iff_eq_none]
  intro held
  obtain ⟨_,same⟩ := Option.isSome_iff_exists.mp held
  exact keyed.1.1 (mem_map.mpr ⟨_,Assoc.mem_of_lookup same,rfl⟩)

theorem keyed_again {after : JsonValue}
    (keyed : (out ++ (key,value) :: rest).Keyed) : (out ++ [(key,after)] ++ rest).Keyed := by
  rw [JsonObject.Keyed] at keyed ⊢
  simpa using keyed

theorem normalize_values_eq (names_allowed : Bool) : ∀ entries out : JsonObject, (out ++ entries).Keyed →
    (∀ entry ∈ entries, Turned entry.2) → normalize_values names_allowed entries out =
      verdict ((entries.map (·.2)).flatMap (found known false)) (out ++ entries.map fun entry => (entry.1,strip known entry.2))
  | [],out,_,_ => by simp [normalize_values,pure_verdict]
  | (name,schema) :: rest,out,keyed,turned => by
    rw [forall_mem_cons] at turned
    have mapped : names_allowed && schema.is_array → (pure schema : Removing JsonValue) =
        verdict (found known false schema) (strip known schema) := by
      intro array
      cases schema with
      | array => exact pure_verdict _
      | _ => simp [is_array] at array
    have after : normalize_values names_allowed rest (out.insert name (strip known schema)) =
        verdict ((rest.map (·.2)).flatMap (found known false))
          (out ++ ((name,schema) :: rest).map fun entry => (entry.1,strip known entry.2)) := by
      rw [JsonObject.insert_of_absent (lookup_fresh keyed),
        normalize_values_eq names_allowed rest _ (keyed_again keyed) turned.2]
      simp
    rw [normalize_values,map_cons,flatMap_cons]
    split_ifs with array
    · rw [mapped array]
      exact verdict_bind after
    · rw [turned.1]
      exact verdict_bind after

theorem normalize_items_eq : ∀ items : List JsonValue, (∀ item ∈ items, Turned item) →
    normalize_items items = verdict (items.flatMap (found known false)) (items.map (strip known))
  | [],_ => pure_verdict _
  | schema :: rest,turned => by
    rw [forall_mem_cons] at turned
    rw [normalize_items,turned.1,flatMap_cons,map_cons]
    refine verdict_bind ?_
    rw [normalize_items_eq rest turned.2]
    exact verdict_map (strip known schema :: ·) _

def normalizeAt : Place → JsonValue → Removing JsonValue
  | .Record, value => normalize_record value
  | .Single, value => normalize value
  | .List, value => normalize_list value
  | .Mixed, value => if value.is_array then normalize_list value else normalize value
  | _, value => pure value

theorem normalize_list_eq {items : List JsonValue} (turned : ∀ item ∈ items, Turned item) :
    normalize_list (.array items) = verdict (items.flatMap (found known false)) (.array (items.map (strip known))) := by
  rw [normalize_list,normalize_items_eq items turned]
  exact verdict_map JsonValue.array _

theorem normalizeAt_eq (keyed : value.Keyed) (names : place ≠ .Names)
    (turned : ∀ child ∈ childrenAt place value, Turned child) : normalizeAt place value =
      verdict ((childrenAt place value).flatMap (found known false)) (mapAt (strip known) place value) := by
  cases place with
  | Names => exact absurd rfl names
  | Data => cases value <;> exact pure_verdict _
  | Single =>
    rw [normalizeAt,childrenAt,List.flatMap_singleton,mapAt]
    exact turned value mem_cons_self
  | Record =>
    cases value with
    | object entries =>
      have each : ∀ entry ∈ entries, Turned entry.2 := fun entry held => turned entry.2 (mem_map.mpr ⟨entry,held,rfl⟩)
      rw [normalizeAt,normalize_record,normalize_values_eq false entries [] keyed.keys each,childrenAt]
      exact verdict_map JsonValue.object _
    | _ => exact pure_verdict _
  | List =>
    cases value with
    | array => exact normalize_list_eq turned
    | _ => exact pure_verdict _
  | Mixed =>
    cases value with
    | array => exact normalize_list_eq turned
    | _ =>
      have own := turned _ mem_cons_self
      simpa [Turned,normalizeAt,is_array,childrenAt,mapAt] using own

theorem keyed_childrenAt (keyed : value.Keyed) (member : child ∈ childrenAt place value) : child.Keyed := by
  cases place <;> cases value <;> simp only [childrenAt,List.not_mem_nil,mem_singleton,mem_map] at member
  all_goals first
    | exact member ▸ keyed
    | exact keyed.item _ member
    | obtain ⟨entry,held,rfl⟩ := member; exact keyed.entry entry held

theorem dependencies_record (keyed : value.Keyed) (turned : ∀ child ∈ childrenAt .Record value, Turned child) :
    normalize_dependencies value = normalize_record value := by
  cases value with
  | object deps =>
    have each : ∀ entry ∈ deps, Turned entry.2 := fun entry held => turned entry.2 (mem_map.mpr ⟨entry,held,rfl⟩)
    rw [normalize_dependencies,normalize_record,normalize_values_eq true deps [] keyed.keys each,
      normalize_values_eq false deps [] keyed.keys each]
  | _ => rfl

theorem normalize_members_cons (keyed : value.Keyed)
    (turned : ∀ place, ∀ child ∈ childrenAt place value, Turned child) (names : known key ≠ .Names) :
    normalize_members ((key,value) :: rest) out =
      normalizeAt (known key) value >>= fun v => normalize_members rest (out.insert key v) := by
  unfold known at names ⊢
  rw [normalize_members]
  by_cases isNames : key = "propertyNames"
  · exact absurd (if_pos isNames) names
  rw [if_neg isNames,if_neg isNames]
  by_cases record : key ∈ RECORD_KEYWORDS
  · rw [if_pos record,if_pos record,normalizeAt]
  rw [if_neg record,if_neg record]
  by_cases single : key ∈ SINGLE_KEYWORDS
  · rw [if_pos single,if_pos single,normalizeAt]
  rw [if_neg single,if_neg single]
  by_cases list : key ∈ LIST_KEYWORDS
  · rw [if_pos list,if_pos list,normalizeAt]
  rw [if_neg list,if_neg list]
  by_cases items : key = "items"
  · rw [if_pos items,if_pos items,normalizeAt]
    split_ifs <;> rfl
  rw [if_neg items,if_neg items]
  by_cases dependencies : key = "dependencies"
  · rw [if_pos dependencies,if_pos dependencies]
    rw [normalizeAt,dependencies_record keyed (turned .Record)]
  rw [if_neg dependencies,if_neg dependencies]
  rfl

theorem normalize_members_eq : ∀ members out : JsonObject, (out ++ members).Keyed → (∀ member ∈ members, member.2.Keyed) →
    (∀ member ∈ members, ∀ place, ∀ child ∈ childrenAt place member.2, Turned child) → normalize_members members out =
      verdict (members.flatMap (foundMember known false)) (out ++ members.filterMap (stripMember known))
  | [],out,_,_,_ => by simp [normalize_members,pure_verdict]
  | (key,value) :: rest,out,keyed,values,turned => by
    rw [forall_mem_cons] at values turned
    by_cases names : known key = .Names
    · have isNames : key = "propertyNames" := by
        unfold known at names
        by_contra other
        rw [if_neg other] at names
        split_ifs at names
      have later := normalize_members_eq rest out
        (keyed.sublist ((List.sublist_cons_self _ _).append_left out |>.map _)) values.2 turned.2
      rw [normalize_members,if_pos isNames,flatMap_cons,foundMember_names names,filterMap_cons,stripMember,if_pos names]
      exact verdict_names later
    · rw [normalize_members_cons values.1 turned.1 names,normalizeAt_eq values.1 names (turned.1 _),flatMap_cons,
        foundMember_other names]
      refine verdict_bind ?_
      rw [JsonObject.insert_of_absent (lookup_fresh keyed),
        normalize_members_eq rest _ (keyed_again keyed) values.2 turned.2,filterMap_cons,stripMember,if_neg names]
      simp

theorem normalize_eq (value : JsonValue) : value.Keyed → Turned value := by
  induction value using place_induction with
  | other value other =>
    intro _
    cases value with
    | object => cases other
    | _ => exact pure_verdict _
  | object members ih =>
    intro keyed
    have each : ∀ member ∈ members, ∀ place, ∀ child ∈ childrenAt place member.2, Turned child :=
      fun member held place child inside => ih member held place child inside (keyed_childrenAt (keyed.entry member held) inside)
    rw [Turned,normalize,normalize_members_eq members [] keyed.keys keyed.entry each,found_object,strip_object]
    exact verdict_map JsonValue.object _

theorem normalize_json_schema_eq {schema : JsonValue} (keyed : schema.Keyed) : normalize_json_schema schema =
    if (found known false schema).all is_string_schema then
      .ok (strip known schema,if found known false schema = [] then [] else [compatibility])
    else .error refusal := by
  rw [normalize_json_schema,normalize_eq schema keyed]
  simp only [StateT.run,verdict]
  split_ifs <;> simp_all [bind,Except.bind,pure,Except.pure]

theorem keyed_mapAt {f : JsonValue → JsonValue} (keyed : value.Keyed)
    (each : ∀ child ∈ childrenAt place value, (f child).Keyed) : (mapAt f place value).Keyed := by
  cases place with
  | Names | Data => cases value <;> exact keyed
  | Single => exact each value mem_cons_self
  | Record =>
    cases value with
    | object =>
      refine .object ?_ ?_
      · rw [JsonObject.Keyed,List.map_map]
        exact keyed.keys
      · intro entry held
        obtain ⟨before,inside,rfl⟩ := mem_map.mp held
        exact each before.2 (mem_map.mpr ⟨before,inside,rfl⟩)
    | _ => exact keyed
  | List | Mixed =>
    cases value with
    | array =>
      refine .array fun item held => ?_
      obtain ⟨before,inside,rfl⟩ := mem_map.mp held
      exact each before inside
    | _ => first | exact keyed | exact each _ mem_cons_self

theorem keyed_strip {p : String → Place} (value : JsonValue) : value.Keyed → (strip p value).Keyed := by
  induction value using place_induction with
  | other _ other => rw [strip_other other]; exact fun keyed => keyed
  | object members ih =>
    intro keyed
    rw [strip_object]
    have names : ∀ list : JsonObject, List.Sublist ((list.filterMap (stripMember p)).map (·.1)) (list.map (·.1)) := by
      intro list
      induction list with
      | nil => exact .slnil
      | cons _ _ ih =>
        rw [filterMap_cons,stripMember]
        split_ifs
        · exact .cons _ ih
        · exact .cons_cons _ ih
    refine .object (keyed.keys.sublist (names members)) fun after kept => ?_
    obtain ⟨member,held,same⟩ := List.mem_filterMap.mp kept
    rw [stripMember] at same
    split_ifs at same with isNames
    cases same
    exact keyed_mapAt (keyed.entry member held) fun child inside =>
      ih member held _ child inside (keyed_childrenAt (keyed.entry member held) inside)

/-! ### The normalization of a schema -/

theorem known_within : Within known vocabulary := by
  intro key
  rw [vocabulary]
  split_ifs with items schemas single
  · exact .inr (by subst items; decide)
  · exact .inr (by subst schemas; decide)
  · exact .inr (by rcases single with rfl | rfl <;> decide)
  · exact .inl rfl

/-- What a normalization is for: it succeeds where every `propertyNames` is a string schema, removes them all and
    nothing else, says so, and is done then. -/
structure Normalized (schema : JsonValue) : Prop where
  fails : (∃ error, normalize_json_schema schema = .error error) ↔
    ∃ names ∈ found vocabulary true schema, is_string_schema names = false
  strips : ∀ out warnings, normalize_json_schema schema = .ok (out,warnings) → out = strip vocabulary schema
  warns : ∀ out warnings, normalize_json_schema schema = .ok (out,warnings) → (warnings ≠ [] ↔ out ≠ schema)
  again : ∀ out warnings, normalize_json_schema schema = .ok (out,warnings) → normalize_json_schema out = .ok (out,[])

/-- A `propertyNames` at a known place is refused, or none stands at an unknown one and all are string schemas. -/
def Covered (schema : JsonValue) : Prop :=
  (∃ names ∈ found known false schema, is_string_schema names = false) ∨
    found known false schema = found vocabulary false schema ∧
      ∀ names ∈ found vocabulary true schema, is_string_schema names = true

theorem strip_known_iff (schema : JsonValue) :
    strip known schema = strip vocabulary schema ↔ found known false schema = found vocabulary false schema := by
  have lengths := length_found known_within schema
  have none_left : strip known schema = strip vocabulary schema ↔ found vocabulary false (strip known schema) = [] := by
    constructor
    · intro same
      rw [same]
      exact found_strip schema
    · intro nothing
      rw [← strip_strip known_within schema]
      exact (strip_of_found _ nothing).symm
  rw [none_left]
  constructor
  · intro nothing
    rw [nothing] at lengths
    exact (found_sublist known_within schema).eq_of_length lengths.symm
  · intro same
    rw [same] at lengths
    exact List.eq_nil_of_length_eq_zero (by omega)

/-- For every schema. -/
theorem normalizes_iff (schema : JsonValue) (keyed : schema.Keyed) : Normalized schema ↔ Covered schema := by
  have again : normalize_json_schema (strip known schema) = .ok (strip known schema,[]) := by
    rw [normalize_json_schema_eq (keyed_strip schema keyed),found_strip,strip_of_found _ (found_strip schema)]
    rfl
  by_cases all : (found known false schema).all is_string_schema = true
  · have outcome := (normalize_json_schema_eq keyed).trans (if_pos all)
    have accepted : ∀ names ∈ found known false schema, is_string_schema names = true := List.all_eq_true.mp all
    constructor
    · intro normalized
      refine .inr ⟨(strip_known_iff schema).mp (normalized.strips _ _ outcome),fun names member => ?_⟩
      by_contra refused
      obtain ⟨error,failed⟩ := normalized.fails.mpr ⟨names,member,by simpa using refused⟩
      rw [outcome] at failed
      cases failed
    · rintro (⟨names,member,refused⟩ | ⟨same,strings⟩)
      · rw [accepted names member] at refused
        cases refused
      · refine ⟨iff_of_false ?_ ?_,?_,?_,?_⟩
        · rintro ⟨error,failed⟩
          rw [outcome] at failed
          cases failed
        · rintro ⟨names,member,refused⟩
          rw [strings names member] at refused
          cases refused
        · intro out warnings given
          cases outcome.symm.trans given
          exact (strip_known_iff schema).mpr same
        · intro out warnings given
          cases outcome.symm.trans given
          rw [← found_iff_changed]
          split_ifs with nothing <;> simp [nothing]
        · intro out warnings given
          cases outcome.symm.trans given
          exact again
  · have outcome := (normalize_json_schema_eq keyed).trans (if_neg all)
    obtain ⟨names,member,refused⟩ : ∃ names ∈ found known false schema, is_string_schema names = false := by
      simpa using all
    refine iff_of_true ⟨iff_of_true ⟨_,outcome⟩ ⟨names,found_deep known_within schema member,refused⟩,?_,?_,?_⟩
      (.inl ⟨names,member,refused⟩)
    all_goals
      intro out warnings given
      rw [outcome] at given
      cases given

def tuple (keyword : String) : JsonValue :=
  .object [(keyword,.array [.object [("propertyNames",.object [("type",.string "string")])]])]

theorem normalizes_iff_items : Normalized (tuple "items") ↔ Covered (tuple "items") :=
  normalizes_iff (tuple "items") (by simp [tuple,JsonObject.Keyed])

/-- `propertyNames` stays below `prefixItems`. -/
theorem prefix_items_kept : ¬ Normalized (tuple "prefixItems") := by
  intro normalized
  have kept := normalized.strips (tuple "prefixItems") [] (by rfl)
  cases kept

end Ferrin.OpenAi.JsonSchema
