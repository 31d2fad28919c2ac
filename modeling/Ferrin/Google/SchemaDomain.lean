import Ferrin.Google.SchemaRecursion

/-!
The schemas that the conversion carries over, what their references point to, and
where a keyword is lost.
-/
namespace Ferrin.Google.JsonSchema
open JsonObject Ferrin.JsonSchema Ferrin.Result List

/-! ### The schemas that are carried over -/

/-- Keywords that reject no instance. -/
def annotations : List String :=
  ["title","description","default","examples","format","$comment","$schema","readOnly","writeOnly","deprecated","$defs",
    "definitions"]

def strings (texts : List String) : JsonValue := .array (texts.map .string)

structure Shaped (object : JsonObject) : Prop where
  keyed : Keyed object
  keywords : ∀ entry ∈ object, entry.1 ∈ assertions ∨ entry.1 ∈ annotations
  types : ∀ value, object.get "type" = some value →
    (∃ name, value = .string name ∧ name ≠ "") ∨ ∃ names, names ≠ [] ∧ value = strings names
  members : ∀ value, object.get "enum" = some value → ∃ texts, value = strings texts
  required : ∀ value, object.get "required" = some value → ∃ names, value = strings names
  properties : ∀ value, object.get "properties" = some value → ∃ entries, Keyed entries ∧ value = .object entries
  alternatives : ∀ key ∈ ["allOf","anyOf","oneOf"], ∀ value, object.get key = some value → ∃ schemas, value = .array schemas

def subschemas (object : JsonObject) : List JsonValue :=
  propertySchemas (object.get "properties") ++ (object.get "items").toList ++ listed (object.get "allOf") ++
    listed (object.get "anyOf") ++ listed (object.get "oneOf")

/-- A schema of the keywords that the conversion carries over. A reference has annotations beside it at most. -/
inductive Carried : JsonValue → Prop where
  | bool (accepts : Bool) : Carried (.bool accepts)
  | reference {object : JsonObject} {reference : String} : Keyed object → referenceOf object = some reference →
    (∀ entry ∈ object, entry.1 = "$ref" ∨ entry.1 ∈ annotations) → Carried (.object object)
  | schema {object : JsonObject} : Shaped object → (∀ schema ∈ subschemas object, Carried schema) →
    Carried (.object object)

structure CarriedRoot (root : JsonValue) : Prop where
  whole : Carried root
  definitions : ∀ member ∈ ["$defs","definitions"], ∀ entries, (root.get member).bind (·.as_object) = some entries →
    ∀ entry ∈ entries, Carried entry.2

def pointerTokens (pointer : List Char) : Option (List String) :=
  (pointer.splitOn '/').mapM fun token => unescape <$> percent_decode (String.ofList token)

def walk : List String → JsonValue → Option JsonValue
  | [], value => some value
  | name :: rest, value => (value.get name).bind (walk rest)

def dereference (root : JsonValue) (reference : String) : Option JsonValue :=
  match reference.toList with
  | '#' :: '/' :: pointer => (pointerTokens pointer).bind (walk · root)
  | _ => none

theorem pointerTokens_pair (member : String) {token : List Char} (plain : '/' ∉ member.toList) (safe : '%' ∉ member.toList)
    (last : '/' ∉ token) {decoded : String} (decodes : percent_decode (String.ofList token) = some decoded) :
    pointerTokens (member.toList ++ '/' :: token) = some [unescape member,unescape decoded] := by
  have split : (member.toList ++ '/' :: token).splitOn '/' = [member.toList,token] := by
    rw [splitOn_append_cons_self,splitOn_eq_singleton plain,splitOn_eq_singleton last]
    rfl
  have whole : percent_decode member = some member := if_pos safe
  rw [pointerTokens,split]
  simp [whole,decodes]

theorem dereference_eq {root definition : JsonValue} {reference key : String} {context : Context}
    (definitions : context.definitions = (rootContext root).definitions)
    (dollar : context.dollar_definitions = (rootContext root).dollar_definitions)
    (found : referenced_definition reference context = .ok (definition,key)) : dereference root reference = some definition := by
  obtain ⟨_,_,entries,_,source,rfl,held,rfl,encoded,decoded,text,last,decodes,rfl⟩ := referenced_definition_ok found
  have walks (mem : String) (at_ : (root.get mem).bind (·.as_object) = some entries) :
      walk [mem,unescape decoded] root = some definition := by
    obtain ⟨_,outer,inner⟩ := Option.bind_eq_some_iff.mp at_
    change ((root.get mem).bind fun value => (value.get _).bind some) = _
    rw [outer,Option.bind_some,JsonValue.get,inner,Option.bind_some,held,Option.bind_some]
  simp only [mem_cons,Prod.mk.injEq,not_mem_nil,or_false] at source
  rcases source with ⟨rfl,same⟩ | ⟨rfl,same⟩
  · have split : reference.toList = '#' :: '/' :: ("$defs".toList ++ '/' :: encoded) := by rw [text]; rfl
    rw [dereference,split]
    change (pointerTokens ("$defs".toList ++ '/' :: encoded)).bind _ = _
    rw [pointerTokens_pair "$defs" (by decide) (by decide) last decodes,Option.bind_some]
    exact walks "$defs" (by rw [same,dollar]; rfl)
  · have split : reference.toList = '#' :: '/' :: ("definitions".toList ++ '/' :: encoded) := by rw [text]; rfl
    rw [dereference,split]
    change (pointerTokens ("definitions".toList ++ '/' :: encoded)).bind _ = _
    rw [pointerTokens_pair "definitions" (by decide) (by decide) last decodes,Option.bind_some]
    exact walks "definitions" (by rw [same,definitions]; rfl)

def nonNull : Option JsonValue → List JsonValue
  | some (.array types) => types.filter fun value => value.as_str ≠ some "null"
  | _ => []

def listsTypes (object : JsonObject) : Bool := (object.get "enum").isNone && nonNull (object.get "type") ≠ []

/-- The keywords that the conversion writes for an object, but for what `anyOf` adds. -/
def own (object : JsonObject) : List String :=
  (assertions.filter fun keyword => keyword ≠ "type" && keyword ≠ "anyOf" && (object.get keyword).isSome) ++
    if listsTypes object then ["anyOf"]
    else if (object.get "type").isSome || (object.get "enum").isSome then ["type"]
    else []

def hasNull (object : JsonObject) : Bool := (listed (object.get "anyOf")).any is_null_schema

def lone (object : JsonObject) : Option JsonValue :=
  if hasNull object then
    match alternatives (object.get "anyOf") with
    | [schema] => some schema
    | _ => none
  else none

def becomesNullable (object : JsonObject) : Bool :=
  (listsNull (object.get "type") && nonNull (object.get "type") ≠ []) || hasNull object

inductive Writes : Context → JsonValue → String → Prop where
  | definition {context : Context} {object : JsonObject} {reference key keyword : String} {definition : JsonValue} :
    referenceOf object = some reference → referenced_definition reference context = .ok (definition,key) →
    Writes (context.push key) (merge_siblings object definition) keyword → Writes context (.object object) keyword
  | empty {context : Context} {object : JsonObject} : referenceOf object = none → is_empty_object_schema object = true →
    Writes context (.object object) "type"
  | own {context : Context} {object : JsonObject} {keyword : String} : referenceOf object = none →
    is_empty_object_schema object = false → keyword ∈ own object → Writes context (.object object) keyword
  | alternatives {context : Context} {object : JsonObject} : referenceOf object = none →
    is_empty_object_schema object = false → (object.get "anyOf").isSome = true → lone object = none →
    Writes context (.object object) "anyOf"
  | lone {context : Context} {object : JsonObject} {schema : JsonValue} {keyword : String} : referenceOf object = none →
    is_empty_object_schema object = false → lone object = some schema → Writes context schema keyword →
    Writes context (.object object) keyword

/-- Nothing is lost of an object: what is dropped with an object schema rejects no object, a schema that becomes
nullable accepts null, and no keyword is written twice. -/
structure Kept (root : JsonValue) (context : Context) (object : JsonObject) : Prop where
  objects : is_empty_object_schema object = true →
    ∃ depth, ∀ n, depth ≤ n → ∀ entries, validates (dereference root) n (.object object) (.object entries) = true
  null : is_empty_object_schema object = false → becomesNullable object = true →
    Accepts (dereference root) (.object object) .null
  types : listsTypes object = true → (object.get "anyOf").isSome = true → (lone object).isSome = true
  merged : is_empty_object_schema object = false → ∀ schema, lone object = some schema →
    ∀ keyword, Writes context schema keyword → keyword ∉ own object

end Ferrin.Google.JsonSchema
