import Ferrin.Schema.Positions
import Ferrin.Schema.Transform

/-!
The normal form of OpenAI strict mode: what the rewrite brings every schema to,
and that it leaves schemas in normal form as they are.
-/
namespace Ferrin.Schema
open JsonObject JsonValue Library List
open List (mem_cons mem_map mem_singleton)
open Option (map_some some)

/-! ### The normal form -/

/-- All keys, as `required` lists them. -/
def keysOf (properties : JsonObject) : JsonValue := .array ((properties.map (·.1)).map .string)

structure Normal (o : JsonObject) : Prop where
  closed : is_object o = true → o.get "additionalProperties" = some (.bool false)
  required : is_object o = true → ∀ properties, o.get "properties" = some (.object properties) →
    o.get "required" = some (keysOf properties)
  unnamed : o.get "propertyNames" = none

/-- A schema that is in normal form with all schemas in it. -/
inductive Strict : JsonValue → Prop where
  | other {v : JsonValue} : v.as_object = none → Strict v
  | object {o : JsonObject} : JsonObject.Keyed o → Normal o → (∀ child ∈ children o, Strict child) → Strict (.object o)

/-- The values that the check for dictionaries goes on with. -/
def checked (o : JsonObject) : List JsonValue :=
  mapKeywords.flatMap (fun key => ((o.get key).map fun v => (v.as_object.getD []).map (·.2)).getD []) ++
    valueKeywords.flatMap fun key => ((o.get key).map schemaChildren).getD []

/-- A schema without dictionaries, with all schemas in it. -/
inductive Fixed : JsonValue → Prop where
  | other {v : JsonValue} : v.as_object = none → Fixed v
  | object {o : JsonObject} : unsupported (o.get "additionalProperties") = false →
    unsupported (o.get "patternProperties") = false → (∀ child ∈ checked o, Fixed child) → Fixed (.object o)

section
variable {o o' s : JsonObject} {v v' w child : JsonValue} {key : String}

theorem Strict.visited (strict : Strict v) (path : Relation.ReflTransGen Visits v w) : Strict w := by
  induction path with
  | refl => exact strict
  | tail _ step ih =>
    obtain ⟨o,rfl,inside⟩ := step
    cases ih with
    | other none_ => cases none_
    | object _ _ each => exact each _ inside

theorem Strict.normal (strict : Strict (.object o)) : Normal o := by
  cases strict with
  | other none_ => cases none_
  | object _ normal => exact normal

theorem forM_ok {ε α : Type} {f : α → Except ε Unit} {l : List α} : l.forM f = .ok () ↔ ∀ a ∈ l, f a = .ok () := by
  induction l with
  | nil => simp [pure,Except.pure]
  | cons a rest ih =>
    change (f a >>= fun _ => rest.forM f) = .ok () ↔ _
    rw [Result.bind_ok,forall_mem_cons,ih]
    exact ⟨fun ⟨_,first,others⟩ => ⟨first,others⟩,fun ⟨first,others⟩ => ⟨(),first,others⟩⟩

theorem then_ok {ε : Type} {x y : Except ε Unit} : (x >>= fun _ => y) = .ok () ↔ x = .ok () ∧ y = .ok () := by
  rw [Result.bind_ok]
  exact ⟨fun ⟨_,first,second⟩ => ⟨first,second⟩,fun ⟨first,second⟩ => ⟨(),first,second⟩⟩

theorem validate_keyword_ok : validate_keyword o key = .ok () ↔ unsupported (o.get key) = false := by
  unfold validate_keyword
  cases unsupported (o.get key) with
  | true => simp [throw,throwThe,MonadExceptOf.throw]
  | false => simp [pure,Except.pure]

theorem validate_map_ok {validate : JsonValue → Except SchemaError Unit} : validate_map validate o key = .ok () ↔
    ∀ child ∈ ((o.get key).map fun v => (v.as_object.getD []).map (·.2)).getD [], validate child = .ok () := by
  unfold validate_map
  split
  · next map held =>
    rw [forM_ok,held]
    simp only [as_object,map_some,Option.getD_some,forall_mem_map]
  · next other =>
    refine ⟨fun _ child inside => ?_,fun _ => rfl⟩
    cases held : o.get key with
    | none => simp [held] at inside
    | some v =>
      cases v with
      | object map => exact absurd held (other map)
      | _ => simp [held,as_object] at inside

theorem validate_value_ok {validate : JsonValue → Except SchemaError Unit} : validate_value validate o key = .ok () ↔
    ∀ child ∈ ((o.get key).map schemaChildren).getD [], validate child = .ok () := by
  unfold validate_value
  cases held : o.get key with
  | none => simp [pure,Except.pure]
  | some v =>
    cases v with
    | array => exact forM_ok
    | _ => simp [schemaChildren]

theorem validate_object_ok {validate : JsonValue → Except SchemaError Unit} : validate_object validate o = .ok () ↔
    unsupported (o.get "additionalProperties") = false ∧ unsupported (o.get "patternProperties") = false ∧
      ∀ child ∈ checked o, validate child = .ok () := by
  rw [validate_object,then_ok,then_ok,forM_ok,forM_ok,forM_ok]
  simp only [validate_keyword_ok,validate_map_ok,validate_value_ok,forall_mem_cons,not_mem_nil,false_imp_iff,
    implies_true,and_true,checked,mem_append,mem_flatMap,or_imp,forall_and,forall_exists_index,and_imp]
  constructor
  · rintro ⟨⟨additional,pattern⟩,maps,values⟩
    exact ⟨additional,pattern,fun child key known => maps key known child,fun child key known => values key known child⟩
  · rintro ⟨additional,pattern,maps,values⟩
    exact ⟨⟨additional,pattern⟩,fun key known child => maps child key known,fun key known child => values child key known⟩

theorem depth_checked (mem : child ∈ checked o) : child.depth < (JsonValue.object o).depth := by
  rcases List.mem_append.mp mem with inside | inside
  · obtain ⟨key,_,v,held,inside⟩ := mem_held.mp inside
    cases v with
    | object =>
      obtain ⟨_,within,rfl⟩ := mem_map.mp inside
      exact Nat.lt_trans (depth_entry within) (depth_get held)
    | _ => cases inside
  · obtain ⟨_,_,v,held,inside⟩ := mem_held.mp inside
    exact Nat.lt_of_le_of_lt (depth_schemaChildren inside) (depth_get held)

theorem validate_strict_maps_ok : ∀ {n : Nat} {v : JsonValue}, v.depth < n → (validate_strict_maps n v = .ok () ↔ Fixed v)
  | n + 1,.object o,deep => by
    have each : (∀ child ∈ checked o, validate_strict_maps n child = .ok ()) ↔ ∀ child ∈ checked o, Fixed child :=
      forall₂_congr fun child inside =>
        validate_strict_maps_ok (Nat.lt_of_lt_of_le (depth_checked inside) (Nat.le_of_lt_succ deep))
    rw [validate_strict_maps,validate_object_ok,each]
    constructor
    · rintro ⟨additional,pattern,each⟩
      exact .object additional pattern each
    · rintro (none_ | ⟨additional,pattern,each⟩)
      · cases none_
      · exact ⟨additional,pattern,each⟩
  | n + 1,.null,_ | n + 1,.bool _,_ | n + 1,.number _,_ | n + 1,.string _,_ | n + 1,.array _,_ => ⟨fun _ => .other rfl,fun _ => rfl⟩

def nullified (required : List String) (properties : JsonObject) : JsonObject :=
  properties.map fun entry => (entry.1,if entry.1 ∈ required then entry.2 else make_nullable entry.2)

def closed (o : JsonObject) : JsonObject :=
  (match o.get "properties" with
    | some (.object properties) => (o.insert "properties" (.object (nullified (required_names o) properties))).insert
        "required" (keysOf properties)
    | _ => o).insert "additionalProperties" (.bool false)

def strictened (o : JsonObject) : JsonObject :=
  if is_object (swap_remove o "propertyNames") then closed (swap_remove o "propertyNames")
  else swap_remove o "propertyNames"

theorem require_properties_yields (required : List String) (path : String) (properties : JsonObject) :
    Yields (fun next => next = nullified required properties) (require_properties required path properties) := by
  refine .mapM_to fun entry _ => ?_
  dsimp only
  split_ifs with known
  · exact .pure rfl
  · exact (Yields.trivial _).bind fun _ _ => .pure rfl

theorem close_object_yields (o : JsonObject) (path : String) : Yields (· = closed o) (close_object o path) := by
  have unchanged (same : (match o.get "properties" with
      | some (.object properties) => (o.insert "properties" (.object (nullified (required_names o) properties))).insert
        "required" (keysOf properties)
      | _ => o) = o) (skipped : close_object o path = pure (o.insert "additionalProperties" (.bool false))) :
      Yields (· = closed o) (close_object o path) := by
    rw [closed,same,skipped]
    exact .pure rfl
  cases held : o.get "properties" with
  | none => exact unchanged (by rw [held]) (by simp only [close_object,held,pure_bind])
  | some v =>
    cases v with
    | object properties =>
      simp only [close_object,closed,held]
      refine (require_properties_yields (required_names o) path properties).bind fun nullable same => ?_
      rw [pure_bind,same]
      exact .pure rfl
    | _ => exact unchanged (by rw [held]) (by simp only [close_object,held,pure_bind])

theorem get_closed (held : (closed o).get key = some v) :
    (key = "additionalProperties" ∧ v = .bool false) ∨ (key = "required" ∧ ∃ properties, v = keysOf properties) ∨
      (key = "properties" ∧ ∃ properties, o.get key = some (.object properties) ∧
        v = .object (nullified (required_names o) properties)) ∨ o.get key = some v := by
  unfold closed at held
  rw [get_insert] at held
  by_cases additional : key = "additionalProperties"
  · rw [if_pos additional] at held
    exact .inl ⟨additional,(some.inj held).symm⟩
  rw [if_neg additional] at held
  split at held
  · next properties found =>
    rw [get_insert,get_insert] at held
    by_cases required : key = "required"
    · rw [if_pos required] at held
      exact .inr (.inl ⟨required,properties,(some.inj held).symm⟩)
    rw [if_neg required] at held
    by_cases own : key = "properties"
    · rw [if_pos own] at held
      exact .inr (.inr (.inl ⟨own,properties,own ▸ found,(some.inj held).symm⟩))
    · rw [if_neg own] at held
      exact .inr (.inr (.inr held))
  · exact .inr (.inr (.inr held))

theorem get_closed_other (additional : key ≠ "additionalProperties") (required : key ≠ "required") (own : key ≠ "properties") :
    (closed o).get key = o.get key := by
  unfold closed
  rw [get_insert,if_neg additional]
  split
  · rw [get_insert,if_neg required,get_insert,if_neg own]
  · rfl

theorem get_closed_properties : (closed o).get "properties" = (o.get "properties").map fun v =>
    match v with
    | .object properties => .object (nullified (required_names o) properties)
    | other => other := by
  unfold closed
  rw [get_insert,if_neg (by decide)]
  cases held : o.get "properties" with
  | none => simp [held]
  | some v =>
    cases v with
    | object => simp [get_insert]
    | _ => simp [held]

theorem is_object_congr (types : o'.get "type" = o.get "type") (properties : (o'.get "properties").isSome = (o.get "properties").isSome) :
    is_object o' = is_object o := by
  rw [is_object,is_object,types,properties]

theorem keyed_closed (keyed : JsonObject.Keyed o) : JsonObject.Keyed (closed o) := by
  unfold closed
  split
  · exact ((keyed.insert ..).insert ..).insert ..
  · exact keyed.insert ..

theorem closed_normal (unnamed : o.get "propertyNames" = none) : Normal (closed o) where
  closed _ := by rw [closed,get_insert,if_pos rfl]
  required _ properties held := by
    rw [get_closed_properties] at held
    cases found : o.get "properties" with
    | none =>
      rw [found] at held
      cases held
    | some v =>
      rw [found,map_some] at held
      cases v with
      | object =>
        obtain rfl := JsonValue.object.inj (some.inj held)
        rw [closed,found]
        simp [get_insert,keysOf,nullified]
      | _ => cases held
  unnamed := by rw [get_closed_other (by decide) (by decide) (by decide),unnamed]

theorem strictened_normal (keyed : JsonObject.Keyed o) : Normal (strictened o) := by
  have unnamed : (swap_remove o "propertyNames").get "propertyNames" = none := by rw [get_swap_remove keyed,if_pos rfl]
  unfold strictened
  split_ifs with object
  · exact closed_normal unnamed
  · exact ⟨fun known => absurd known object,fun known => absurd known object,unnamed⟩

theorem get_strictened (keyed : JsonObject.Keyed o) (held : (strictened o).get key = some v) :
    (key = "additionalProperties" ∧ v = .bool false) ∨ (key = "required" ∧ ∃ properties, v = keysOf properties) ∨
      (key = "properties" ∧ ∃ required properties, o.get key = some (.object properties) ∧
        v = .object (nullified required properties)) ∨ o.get key = some v := by
  have before (value : JsonValue) (held : (swap_remove o "propertyNames").get key = some value) : o.get key = some value := by
    rw [get_swap_remove keyed] at held
    split_ifs at held
    exact held
  unfold strictened at held
  split_ifs at held
  · rcases get_closed held with additional | required | ⟨own,properties,found,rfl⟩ | found
    · exact .inl additional
    · exact .inr (.inl required)
    · exact .inr (.inr (.inl ⟨own,_,properties,before _ found,rfl⟩))
    · exact .inr (.inr (.inr (before v found)))
  · exact .inr (.inr (.inr (before v held)))

theorem keyed_make_nullable (keyed : Keyed v) : Keyed (make_nullable v) := by
  have type : Keyed (.object [("type",.string "null")]) := .object (by simp [JsonObject.Keyed]) fun entry mem => by
    obtain rfl := mem_singleton.mp mem
    exact .string _
  refine .object (by simp [JsonObject.Keyed]) fun entry mem => ?_
  obtain rfl := mem_singleton.mp mem
  refine .array fun item mem => ?_
  rcases mem_cons.mp mem with rfl | mem
  · exact keyed
  · obtain rfl := mem_singleton.mp mem
    exact type

theorem keyed_nullified {properties : JsonObject} (required : List String) (keyed : Keyed (.object properties)) :
    Keyed (.object (nullified required properties)) := by
  refine .object ?_ fun entry mem => ?_
  · rw [JsonObject.Keyed,nullified,map_map]
    exact keyed.keys
  · obtain ⟨own,within,rfl⟩ := mem_map.mp mem
    dsimp only
    split_ifs
    · exact keyed.entry own within
    · exact keyed_make_nullable (keyed.entry own within)

theorem keyed_keysOf (properties : JsonObject) : Keyed (keysOf properties) := by
  refine .array fun item mem => ?_
  obtain ⟨name,_,rfl⟩ := mem_map.mp mem
  exact .string name

theorem strictened_keyed (keyed : Keyed (.object o)) : Keyed (.object (strictened o)) := by
  have distinct : JsonObject.Keyed (strictened o) := by
    unfold strictened
    split_ifs
    · exact keyed_closed (keyed.keys.swap_remove _)
    · exact keyed.keys.swap_remove _
  refine .object distinct fun entry member => ?_
  obtain ⟨key,v⟩ := entry
  have held : (strictened o).get key = some v := (get_eq_some distinct).mpr member
  rcases get_strictened keyed.keys held with ⟨_,rfl⟩ | ⟨_,names,rfl⟩ | ⟨_,required,_,found,rfl⟩ | found
  · exact .bool false
  · exact keyed_keysOf names
  · exact keyed_nullified required (keyed.get found)
  · exact keyed.get found

theorem strictened_children (keyed : JsonObject.Keyed o) (mem : child ∈ children (strictened o)) :
    child ∈ children o ∨ child = .bool false ∨
      ∃ property, child = make_nullable property ∧ property.depth + 2 ≤ (JsonValue.object o).depth := by
  rcases mem_children.mp mem with ⟨key,known,v,held,inside⟩ | ⟨key,known,v,held,inside⟩
  · rcases get_strictened keyed held with ⟨_,rfl⟩ | ⟨rfl,_⟩ | ⟨rfl,_,properties,found,rfl⟩ | found
    · cases inside
    · exact absurd known (by decide)
    · obtain ⟨_,_,same,entry,plain⟩ := mem_recordChildren.mp inside
      cases same
      obtain ⟨⟨own,property⟩,within,same⟩ := mem_map.mp entry
      obtain ⟨rfl,becomes⟩ := Prod.mk.inj same
      dsimp only at becomes
      split_ifs at becomes
      · subst becomes
        exact .inl (mem_children.mpr (.inl ⟨_,known,_,found,mem_recordChildren.mpr ⟨properties,own,rfl,within,plain⟩⟩))
      · have inner := depth_entry within
        have outer := depth_get found
        dsimp only at inner
        exact .inr (.inr ⟨property,becomes.symm,by omega⟩)
    · exact .inl (mem_children.mpr (.inl ⟨key,known,v,found,inside⟩))
  · rcases get_strictened keyed held with ⟨_,rfl⟩ | ⟨rfl,_⟩ | ⟨rfl,_⟩ | found
    · exact .inr (.inl (mem_singleton.mp inside))
    · exact absurd known (by decide)
    · exact absurd known (by decide)
    · exact .inl (mem_children.mpr (.inr ⟨key,known,v,found,inside⟩))

/-! ### The levels of the rewrite -/

/-- The levels suffice for the rewrite of a value. -/
inductive Ends : Nat → JsonValue → Prop where
  | other {n : Nat} {v : JsonValue} : v.as_object = none → Ends n v
  | object {n : Nat} {o : JsonObject} : (∀ child ∈ children (strictened o), Ends n child) → Ends (n + 1) (.object o)

theorem strictened_wrapper (v : JsonValue) : strictened [("anyOf",.array [v,.object [("type",.string "null")]])] =
    [("anyOf",.array [v,.object [("type",.string "null")]])] := by
  simp [strictened,swap_remove,is_object,JsonObject.get,lookup_cons]

theorem children_wrapper (v : JsonValue) : children [("anyOf",.array [v,.object [("type",.string "null")]])] =
    [v,.object [("type",.string "null")]] := by
  simp [children,recordKeywords,schemaKeywords,JsonObject.get,lookup_cons,schemaChildren]

theorem ends_null (n : Nat) : Ends (n + 1) (.object [("type",.string "null")]) := by
  refine .object fun child mem => absurd mem ?_
  have same : strictened [("type",.string "null")] = [("type",.string "null")] := by
    simp [strictened,swap_remove,is_object,JsonObject.get]
  have empty : children [("type",.string "null")] = [] := by
    simp [children,recordKeywords,schemaKeywords,JsonObject.get,lookup_cons]
  rw [same,empty]
  exact not_mem_nil

/-- One level more than the value is deep suffices: what becomes nullable stands two levels below its object. -/
theorem ends_of_depth : ∀ {n : Nat} {v : JsonValue}, Keyed v → v.depth < n → Ends n v
  | n + 1,.object o,keyed,deep => by
    refine .object fun child mem => ?_
    have enough := Nat.le_of_lt_succ deep
    rcases strictened_children keyed.keys mem with inside | rfl | ⟨_,rfl,_⟩
    · exact ends_of_depth (keyed_children keyed inside) (Nat.lt_of_lt_of_le (depth_children inside) enough)
    · exact .other rfl
    · obtain ⟨k,rfl⟩ : ∃ k, n = k + 2 := ⟨n - 2,by omega⟩
      have whole := (keyed_children (strictened_keyed keyed) mem).entry _ mem_cons_self
      refine .object fun child mem => ?_
      rw [strictened_wrapper,children_wrapper] at mem
      rcases mem_cons.mp mem with rfl | mem
      · exact ends_of_depth (whole.item _ mem_cons_self) (by omega)
      · obtain rfl := mem_singleton.mp mem
        exact ends_null k
  | n + 1,.null,_,_ | n + 1,.bool _,_,_ | n + 1,.number _,_,_ | n + 1,.string _,_,_ | n + 1,.array _,_,_ => .other rfl

theorem rewrite_object_yields (o : JsonObject) (path : String) : Yields (· = strictened o) (rewrite_object o path) := by
  unfold rewrite_object strictened
  dsimp only
  split_ifs
  · exact close_object_yields _ path
  · exact .pure rfl

structure Kind (v v' : JsonValue) : Prop where
  same : v.as_object = none → v' = v
  object : v.as_object.isSome = true → v'.as_object.isSome = true

theorem Kind.refl (v : JsonValue) : Kind v v := ⟨fun _ => rfl,id⟩

theorem Kind.object_object : Kind (.object o) (.object o') where
  same none_ := nomatch none_
  object _ := rfl

theorem Kind.is_array (kind : Kind v v') : v'.is_array = v.is_array := by
  cases v with
  | object =>
    have object := kind.object rfl
    cases v' with
    | object => rfl
    | _ => cases object
  | _ => rw [kind.same rfl]

section
variable {Q : JsonValue → JsonValue → Prop}

theorem mapKeywords_record : ∀ key ∈ mapKeywords, key ∈ recordKeywords := by decide

theorem valueKeywords_schema : ∀ key ∈ valueKeywords, key ∈ schemaKeywords := by decide

section
variable (visited : Visited Q s o')
include visited

theorem Visited.properties : (o'.get "properties").isSome = (s.get "properties").isSome := by
  cases held : s.get "properties" with
  | none => rw [visited.of_none held]
  | some =>
    obtain ⟨_,held',_⟩ := visited.of_some held
    rw [held']
    rfl

theorem Visited.is_object : Schema.is_object o' = Schema.is_object s :=
  is_object_congr (visited.other (by decide) (by decide)) visited.properties

section
variable (kinds : ∀ v v', Q v v' → Kind v v')
include kinds

theorem Visited.normal (normal : Normal s) : Normal o' where
  closed object := by
    obtain ⟨_,held,related⟩ := visited.schemas (by decide) (normal.closed (visited.is_object ▸ object))
    cases related with
    | one _ becomes => rw [held,(kinds _ _ becomes).same rfl]
  required object properties held := by
    obtain ⟨v,found,related⟩ := visited.before held
    rw [if_pos (by decide)] at related
    cases v with
    | object entries =>
      rw [visited.other (by decide) (by decide),normal.required (visited.is_object ▸ object) entries found,keysOf,keysOf,
        related.keys]
    | _ => cases related
  unnamed := visited.of_none normal.unnamed

theorem Visited.unsupported :
    Schema.unsupported (o'.get "additionalProperties") = Schema.unsupported (s.get "additionalProperties") ∧
      Schema.unsupported (o'.get "patternProperties") = Schema.unsupported (s.get "patternProperties") := by
  constructor
  · cases held : s.get "additionalProperties" with
    | none => rw [visited.of_none held]
    | some v =>
      obtain ⟨v',held',related⟩ := visited.schemas (by decide) held
      rw [held']
      cases related with
      | array => rfl
      | one _ becomes =>
        have kind := kinds _ _ becomes
        cases v with
        | object =>
          cases v' with
          | object => rfl
          | _ => cases kind.object rfl
        | _ => rw [kind.same rfl]
  · cases held : s.get "patternProperties" with
    | none => rw [visited.of_none held]
    | some =>
      obtain ⟨_,held',related⟩ := visited.record (by decide) held
      rw [held']
      cases related with
      | object => rfl
      | other => rfl

theorem Visited.checked (mem : child ∈ Schema.checked o') :
    ∃ before ∈ Schema.checked s, child = before ∨ Q before child := by
  rcases List.mem_append.mp mem with inside | inside
  · obtain ⟨key,known,v',held,inside⟩ := mem_held.mp inside
    obtain ⟨v,found,_⟩ := visited.before held
    obtain ⟨_,same,related⟩ := visited.record (mapKeywords_record key known) found
    obtain rfl := some.inj (same.symm.trans held)
    have within (before : JsonValue) (mem : before ∈ (v.as_object.getD []).map (·.2)) : before ∈ Schema.checked s :=
      mem_append_left _ (mem_held.mpr ⟨key,known,v,found,mem⟩)
    cases related with
    | object each =>
      obtain ⟨_,member',rfl⟩ := mem_map.mp inside
      obtain ⟨entry,mem,_,becomes⟩ := Result.each_right each member'
      refine ⟨entry.2,within _ (mem_map.mpr ⟨entry,mem,rfl⟩),?_⟩
      split_ifs at becomes
      · exact .inl becomes
      · exact .inr becomes
    | other => exact ⟨child,within child inside,.inl rfl⟩
  · obtain ⟨key,known,v',held,inside⟩ := mem_held.mp inside
    obtain ⟨v,found,_⟩ := visited.before held
    obtain ⟨_,same,related⟩ := visited.schemas (valueKeywords_schema key known) found
    obtain rfl := some.inj (same.symm.trans held)
    obtain ⟨before,mem,becomes⟩ := related.children (fun v v' related => (kinds v v' related).is_array) inside
    exact ⟨before,mem_append_right _ (mem_held.mpr ⟨key,known,v,found,mem⟩),.inr becomes⟩

theorem Visited.fixed (fixed : Fixed (.object s))
    (each : ∀ before ∈ Schema.checked s, ∀ child, Q before child → Fixed before → Fixed child) : Fixed (.object o') := by
  cases fixed with
  | other none_ => cases none_
  | object additional pattern whole =>
    obtain ⟨additional',pattern'⟩ := visited.unsupported kinds
    refine .object (additional'.trans additional) (pattern'.trans pattern) fun child mem => ?_
    obtain ⟨before,within,rfl | related⟩ := visited.checked kinds mem
    · exact whole child within
    · exact each before within child related (whole before within)

end

end

end

theorem keyed_checked (keyed : Keyed (.object o)) (mem : child ∈ checked o) : Keyed child := by
  rcases List.mem_append.mp mem with inside | inside
  · obtain ⟨key,_,v,held,inside⟩ := mem_held.mp inside
    cases v with
    | object =>
      obtain ⟨entry,within,rfl⟩ := mem_map.mp inside
      exact (keyed.get held).entry entry within
    | _ => cases inside
  · obtain ⟨_,_,v,held,inside⟩ := mem_held.mp inside
    exact keyed_schemaChildren (keyed.get held) inside

theorem fixed_make_nullable (fixed : Fixed v) : Fixed (make_nullable v) := by
  have type : Fixed (.object [("type",.string "null")]) := by
    refine .object rfl rfl fun child mem => absurd mem ?_
    have empty : checked [("type",.string "null")] = [] := by
      simp [checked,mapKeywords,valueKeywords,JsonObject.get,lookup_cons]
    rw [empty]
    exact not_mem_nil
  refine .object rfl rfl fun child mem => ?_
  have both : checked [("anyOf",.array [v,.object [("type",.string "null")]])] = [v,.object [("type",.string "null")]] := by
    simp [checked,mapKeywords,valueKeywords,JsonObject.get,lookup_cons,schemaChildren]
  rw [both] at mem
  rcases mem_cons.mp mem with rfl | mem
  · exact fixed
  · obtain rfl := mem_singleton.mp mem
    exact type

theorem strictened_fixed (keyed : JsonObject.Keyed o) (fixed : Fixed (.object o)) : Fixed (.object (strictened o)) := by
  cases fixed with
  | other none_ => cases none_
  | object additional pattern each =>
    have known (key : String) (own : key ≠ "properties") (required : key ≠ "required")
        (before : Schema.unsupported (o.get key) = false) : Schema.unsupported ((strictened o).get key) = false := by
      cases held : (strictened o).get key with
      | none => rfl
      | some =>
        rcases get_strictened keyed held with ⟨_,rfl⟩ | ⟨same,_⟩ | ⟨same,_⟩ | found
        · rfl
        · exact absurd same required
        · exact absurd same own
        · rwa [found] at before
    refine .object (known _ (by decide) (by decide) additional) (known _ (by decide) (by decide) pattern) fun child mem => ?_
    rcases List.mem_append.mp mem with inside | inside
    · obtain ⟨key,among,v,held,inside⟩ := mem_held.mp inside
      have before {w : JsonValue} (found : o.get key = some w) (mem : child ∈ (w.as_object.getD []).map (·.2)) : Fixed child :=
        each child (mem_append_left _ (mem_held.mpr ⟨key,among,w,found,mem⟩))
      rcases get_strictened keyed held with ⟨rfl,_⟩ | ⟨rfl,_⟩ | ⟨rfl,_,_,found,rfl⟩ | found
      · exact absurd among (by decide)
      · exact absurd among (by decide)
      · obtain ⟨_,within,rfl⟩ := mem_map.mp inside
        obtain ⟨entry,inner,rfl⟩ := mem_map.mp within
        have own : Fixed entry.2 :=
          each _ (mem_append_left _ (mem_held.mpr ⟨_,among,_,found,mem_map.mpr ⟨entry,inner,rfl⟩⟩))
        dsimp only
        split_ifs
        · exact own
        · exact fixed_make_nullable own
      · exact before found inside
    · obtain ⟨key,among,v,held,inside⟩ := mem_held.mp inside
      rcases get_strictened keyed held with ⟨rfl,_⟩ | ⟨rfl,_⟩ | ⟨rfl,_⟩ | found
      · exact absurd among (by decide)
      · exact absurd among (by decide)
      · exact absurd among (by decide)
      · exact each child (mem_append_right _ (mem_held.mpr ⟨key,among,v,found,inside⟩))

structure Rewritten (v v' : JsonValue) : Prop where
  kind : Kind v v'
  strict : Keyed v → Strict v'
  fixed : Keyed v → Fixed v → Fixed v'

theorem rewrite_openai_strict_yields {n : Nat} (ends : Ends n v) (path : String) :
    Yields (Rewritten v) (rewrite_openai_strict n v path) := by
  induction ends generalizing path with
  | @other n v none_ =>
    have unchanged : rewrite_openai_strict n v path = pure v := by
      cases v with
      | object => cases none_
      | _ => cases n <;> rfl
    rw [unchanged]
    exact .pure ⟨.refl v,fun _ => .other none_,fun _ => id⟩
  | @object n o each ih =>
    rw [rewrite_openai_strict]
    refine (rewrite_object_yields o path).bind fun s same => ?_
    subst same
    refine (visit_children_yields path fun child member path => ih child member path).map fun o' visited => ?_
    have kinds (v v' : JsonValue) (related : Rewritten v v') := related.kind
    refine ⟨.object_object,fun keyed => ?_,fun keyed fixed => ?_⟩
    · have inner := strictened_keyed keyed
      refine .object (visited.keyed inner.keys) (visited.normal kinds (strictened_normal keyed.keys)) fun child member => ?_
      obtain ⟨before,within,related⟩ := visited.children (fun v v' related => related.kind.is_array) member
      exact related.strict (keyed_children inner within)
    · exact visited.fixed kinds (strictened_fixed keyed.keys fixed) fun before within child related =>
        related.fixed (keyed_checked (strictened_keyed keyed) within)

/-! ### References keep the form -/

structure Referred (v v' : JsonValue) : Prop where
  kind : Kind v v'
  strict : Strict v → Strict v'
  fixed : Fixed v → Fixed v'

theorem Referred.refl (v : JsonValue) : Referred v v := ⟨.refl v,id,id⟩

theorem children_congr (same : ∀ key ∈ keywords, o'.get key = o.get key) : children o' = children o := by
  unfold children
  congr 1
  · exact flatMap_congr fun key known => by rw [same key (mem_keywords.mpr (.inl known))]
  · exact flatMap_congr fun key known => by rw [same key (mem_keywords.mpr (.inr known))]

theorem checked_congr (same : ∀ key ∈ keywords, o'.get key = o.get key) : checked o' = checked o := by
  unfold checked
  congr 1
  · exact flatMap_congr fun key known => by rw [same key (mem_keywords.mpr (.inl (mapKeywords_record key known)))]
  · exact flatMap_congr fun key known => by rw [same key (mem_keywords.mpr (.inr (valueKeywords_schema key known)))]

section
variable {Url : Type} [DecidableEq Url] (urls : Urls Url)

def referred (change : String → String) (o : JsonObject) : JsonObject :=
  referenceKeywords.foldl (fun object keyword => JsonObject.modify object keyword (rewriteString change)) o

variable (change : String → String)

theorem get_referred (o : JsonObject) (other : key ∉ referenceKeywords) :
    (referred change o).get key = o.get key := by
  rw [referred,(foldl_modify (by decide) o).2,if_neg other]

theorem keys_referred (o : JsonObject) : (referred change o).map (·.1) = o.map (·.1) :=
  (foldl_modify (by decide) o).1

theorem keywords_not_reference : ∀ key ∈ keywords, key ∉ referenceKeywords := by decide

theorem Normal.referred (normal : Normal o) : Normal (Schema.referred change o) := by
  have get (key : String) (other : key ∉ referenceKeywords) := get_referred change o other
  have object : is_object (Schema.referred change o) = is_object o :=
    is_object_congr (get _ (by decide)) (by rw [get _ (by decide)])
  refine ⟨fun known => ?_,fun known properties held => ?_,?_⟩
  · rw [get _ (by decide)]
    exact normal.closed (object ▸ known)
  · rw [get _ (by decide)] at held ⊢
    exact normal.required (object ▸ known) properties held
  · rw [get _ (by decide)]
    exact normal.unnamed

theorem rewrite_referred (moves : List String) (resources : List (Url × String)) : ∀ (n : Nat) (v : JsonValue) (path : String)
    (base : Url) (inherited : IdKeyword), Yields (Referred v) (rewrite urls moves resources n v path base inherited)
  | 0,v,_,_,_ => .pure (.refl v)
  | n + 1,.object o,path,base,inherited => by
    let change := fun reference => rewrite_reference urls reference (scope urls o base inherited).1 moves resources
    have visits : Yields (Visited Referred (referred change o)) (visit_children (fun child child_path =>
        rewrite urls moves resources n child child_path (scope urls o base inherited).1 (scope urls o base inherited).2)
        (referred change o) path) :=
      visit_children_yields path fun child _ path => rewrite_referred moves resources n child path _ _
    refine Yields.map visits fun o' visited => ?_
    have kinds (v v' : JsonValue) (related : Referred v v') := related.kind
    have same (key : String) (known : key ∈ keywords) := get_referred change o (keywords_not_reference key known)
    refine ⟨.object_object,fun strict => ?_,fun fixed => ?_⟩
    · cases strict with
      | other none_ => cases none_
      | object keyed normal each =>
        refine .object (visited.keyed ?_) (visited.normal kinds (normal.referred change)) fun child mem => ?_
        · rw [JsonObject.Keyed,keys_referred]
          exact keyed
        · obtain ⟨before,within,related⟩ := visited.children (fun v v' related => related.kind.is_array) mem
          rw [children_congr same] at within
          exact related.strict (each before within)
    · refine visited.fixed kinds ?_ fun before within child related => related.fixed
      cases fixed with
      | other none_ => cases none_
      | object =>
        refine .object ?_ ?_ ?_
        · rwa [same _ (by decide)]
        · rwa [same _ (by decide)]
        · rwa [checked_congr same]
  | n + 1,.null,_,_,_ | n + 1,.bool _,_,_,_ | n + 1,.number _,_,_,_ | n + 1,.string _,_,_,_ | n + 1,.array _,_,_,_ =>
    .pure (.refl _)

theorem rewrite_local_references_referred (v : JsonValue) (moves : List String) :
    Referred v (rewrite_local_references urls v moves) := by
  unfold rewrite_local_references
  split_ifs
  · exact .refl v
  · split
    · exact .refl v
    · exact (rewrite_referred urls moves _ _ v "" _ _).id

end

theorem swap_remove_of_absent (absent : o.get key = none) : swap_remove o key = o := by
  induction o with
  | nil => rfl
  | cons entry _ ih =>
    unfold JsonObject.get at absent
    rw [lookup_cons] at absent
    cases same : key == entry.1 with
    | true => simp [same] at absent
    | false =>
      rw [same] at absent
      have differs : entry.1 ≠ key := fun equal => by simp [equal] at same
      rw [swap_remove,if_neg differs,ih absent]

theorem required_names_keysOf {properties : JsonObject} (held : o.get "required" = some (keysOf properties)) :
    required_names o = properties.map (·.1) := by
  rw [required_names,held]
  simp [keysOf,as_array,as_str,filterMap_map,Function.comp_def]

theorem close_object_pure (keyed : JsonObject.Keyed o) (normal : Normal o) (object : is_object o = true) (path : String) :
    close_object o path = pure o := by
  have additional : o.insert "additionalProperties" (.bool false) = o := insert_self keyed (normal.closed object)
  unfold close_object
  cases held : o.get "properties" with
  | none => simp only [pure_bind,additional]
  | some v =>
    cases v with
    | object properties =>
      have required := normal.required object properties held
      have kept : require_properties (required_names o) path properties = pure properties :=
        mapM_eq_pure fun entry mem => by
          have known : entry.1 ∈ required_names o := by
            rw [required_names_keysOf required]
            exact mem_map_of_mem mem
          exact if_pos known
      simp only [kept,pure_bind,insert_self keyed held]
      rw [show JsonValue.array ((properties.map (·.1)).map .string) = keysOf properties from rfl,insert_self keyed required,
        additional]
    | _ => simp only [pure_bind,additional]

theorem Strict.rewrite_openai_strict (strict : Strict v) (n : Nat) (path : String) :
    Schema.rewrite_openai_strict n v path = pure v := by
  induction strict generalizing n path with
  | @other v none_ =>
    cases v with
    | object => cases none_
    | _ => cases n <;> rfl
  | @object o keyed normal each ih =>
    cases n with
    | zero => rfl
    | succ n =>
      have opened : rewrite_object o path = pure o := by
        unfold rewrite_object
        dsimp only
        rw [swap_remove_of_absent normal.unnamed]
        split_ifs with object
        · exact close_object_pure keyed normal object path
        · rfl
      rw [Schema.rewrite_openai_strict,opened,pure_bind,visit_children_pure keyed path fun child member => ih child member n,
        map_pure]

section
variable {Url : Type} [DecidableEq Url] (urls : Urls Url) {schema strict : JsonValue}

theorem to_openai_strict_ok (keyed : Keyed schema) (done : to_openai_strict urls schema = .ok strict) :
    Strict strict ∧ Fixed strict := by
  obtain ⟨_,checks,done⟩ := Result.bind_ok.mp done
  have fixed := (validate_strict_maps_ok (Nat.lt_succ_self _)).mp checks
  have rewritten := (rewrite_openai_strict_yields (ends_of_depth keyed (Nat.lt_succ_self _)) "").state []
  obtain rfl := Except.ok.inj done
  have referred := rewrite_local_references_referred urls ((rewrite_openai_strict (schema.depth + 1) schema "").run []).1
    ((rewrite_openai_strict (schema.depth + 1) schema "").run []).2
  exact ⟨referred.strict (rewritten.strict keyed),referred.fixed (rewritten.fixed keyed fixed)⟩

/-- A result of the strict transform has every visited schema in normal form, and the transform leaves it as it is. -/
theorem openai_strict_normal_form (keyed : Keyed schema) (done : to_openai_strict urls schema = .ok strict) :
    (∀ o : JsonObject, Relation.ReflTransGen Visits strict (.object o) →
      (is_object o = true → o.get "additionalProperties" = some (.bool false) ∧
        ∀ properties, o.get "properties" = some (.object properties) → o.get "required" = some (keysOf properties)) ∧
      o.get "propertyNames" = none) ∧
    to_openai_strict urls strict = .ok strict := by
  obtain ⟨normal,fixed⟩ := to_openai_strict_ok urls keyed done
  constructor
  · intro o path
    have own := (normal.visited path).normal
    exact ⟨fun object => ⟨own.closed object,own.required object⟩,own.unnamed⟩
  · unfold to_openai_strict
    rw [(validate_strict_maps_ok (Nat.lt_succ_self _)).mpr fixed,normal.rewrite_openai_strict]
    rfl

end

def documentUrls : Urls (String × Option String) where
  parse text := some (text,none)
  join base reference :=
    if reference.toList.head? = some '#' then some (base.1,some (String.ofList reference.toList.tail)) else none
  fragment url := url.2
  without_fragment url := (url.1,none)

def optionalProperty : JsonValue :=
  .object [("type",.string "object"),("propertyNames",.object []),
    ("properties",.object [("a",.object [("type",.string "string")]),("b",.object [("$ref",.string "#/properties/a")])]),
    ("required",.array [.string "b"])]

def nullableProperty : JsonValue :=
  .object [("type",.string "object"),("required",.array [.string "a",.string "b"]),
    ("properties",.object [("a",make_nullable (.object [("type",.string "string")])),
      ("b",.object [("$ref",.string "#/properties/a/anyOf/0")])]),
    ("additionalProperties",.bool false)]

theorem openai_strict_normal_form_optional :
    to_openai_strict documentUrls optionalProperty = .ok nullableProperty ∧
      to_openai_strict documentUrls nullableProperty = .ok nullableProperty := by
  have keyed : Keyed optionalProperty := by simp [optionalProperty,JsonObject.Keyed]
  have done : to_openai_strict documentUrls optionalProperty = .ok nullableProperty := by decide +kernel
  exact ⟨done,(openai_strict_normal_form documentUrls keyed done).2⟩

end

end Ferrin.Schema
