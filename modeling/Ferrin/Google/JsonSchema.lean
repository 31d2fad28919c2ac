import Ferrin.Json.Compact
import Ferrin.Json.Schema

/-!
Conversion of JSON Schema to the OpenAPI subset of the Gemini API, with
references to the definitions of the root put in place.
-/
namespace Ferrin

namespace Google.JsonSchema
open JsonObject Ferrin.JsonSchema

/-! ### Errors -/

structure UnsupportedFunctionalityError where
  functionality : String
  message : String

def RECURSIVE_REFERENCE_PREFIX : String := "recursive JSON Schema reference:"

def is_recursive_reference_error (error : UnsupportedFunctionalityError) : Bool :=
  RECURSIVE_REFERENCE_PREFIX.toList.isPrefixOf error.functionality.toList

/-- A conversion fails with an error, or goes deeper than it was let. -/
inductive Failure where
  | Unsupported (error : UnsupportedFunctionalityError)
  | Depth

def unsupported {α : Type} (functionality message : String) : Except Failure α :=
  .error (.Unsupported ⟨functionality,message⟩)

def false_schema {α : Type} : Except Failure α :=
  unsupported "false JSON Schema"
    "Google OpenAPI schema conversion cannot represent a schema that rejects every value"

def unsupported_reference {α : Type} (reference : String) : Except Failure α :=
  unsupported s!"JSON Schema reference: {reference}"
    "Google schema conversion only supports references to direct children of root-level $defs or definitions."

def recursive_reference {α : Type} (reference : String) : Except Failure α :=
  unsupported s!"{RECURSIVE_REFERENCE_PREFIX} {reference}"
    "Google schema conversion does not support recursive JSON Schema references."

def unsupported_enum {α : Type} : Except Failure α :=
  unsupported "JSON Schema enum with mixed or unsupported values"
    "Google does not support this JSON Schema enum. Enum values must share one supported primitive type and match the schema type."

structure Context where
  definitions : Option JsonObject
  dollar_definitions : Option JsonObject
  resolving : List String

def Context.push (context : Context) (key : String) : Context :=
  { context with resolving := context.resolving ++ [key] }

def hexDigit (b : UInt8) : Option Nat :=
  let n := b.toNat
  if 48 ≤ n ∧ n ≤ 57 then some (n - 48)
  else if 97 ≤ n ∧ n ≤ 102 then some (n - 87)
  else if 65 ≤ n ∧ n ≤ 70 then some (n - 55)
  else none

/-- `u8::from_str_radix` on two characters. A sign may stand before a digit. -/
def hexByte (high low : UInt8) : Option UInt8 := do
  let low ← hexDigit low
  if high.toNat = 43 then return low.toUInt8
  else return ((← hexDigit high) * 16 + low).toUInt8

def percentBytes : List UInt8 → Option (List UInt8)
  | [] => some []
  | byte :: rest =>
    if byte.toNat = 37 then
      match rest with
      | high :: low :: rest => do return (← hexByte high low) :: (← percentBytes rest)
      | _ => none
    else (byte :: ·) <$> percentBytes rest

def percent_decode (text : String) : Option String :=
  if '%' ∉ text.toList then some text
  else (percentBytes text.toUTF8.data.toList).bind fun bytes => String.fromUTF8? ⟨bytes.toArray⟩

def has_invalid_tilde_escape : List Char → Bool
  | [] => false
  | c :: rest => (c = '~' && !(rest.head? = some '0' || rest.head? = some '1')) || has_invalid_tilde_escape rest

/-- `str::replace` of an escape by a character. -/
def replaceEscape (digit c : Char) : List Char → List Char
  | '~' :: d :: rest => if d = digit then c :: replaceEscape digit c rest else '~' :: replaceEscape digit c (d :: rest)
  | other :: rest => other :: replaceEscape digit c rest
  | [] => []

def unescape (text : String) : String := String.ofList (replaceEscape '0' '~' (replaceEscape '1' '/' text.toList))

/-- The definition that a reference names, and the key that it is resolved under. -/
def referenced_definition (reference : String) (context : Context) : Except Failure (JsonValue × String) :=
  let sources := [("#/$defs/",context.dollar_definitions),("#/definitions/",context.definitions)]
  match sources.find? fun source => source.1.toList.isPrefixOf reference.toList with
  | none => unsupported_reference reference
  | some (start,definitions) =>
    let encoded := reference.toList.drop start.toList.length
    if encoded = [] ∨ '/' ∈ encoded then unsupported_reference reference
    else
      match percent_decode (String.ofList encoded) with
      | none => unsupported_reference reference
      | some decoded =>
        if '/' ∈ decoded.toList ∨ has_invalid_tilde_escape decoded.toList then unsupported_reference reference
        else
          let name := unescape decoded
          match definitions.bind (·.get name) with
          | none => unsupported_reference reference
          | some definition => .ok (definition,start ++ name)

def merge_siblings (object : JsonObject) (definition : JsonValue) : JsonValue :=
  let sibling := swap_remove object "$ref"
  match definition with
  | .bool true => .object sibling
  | .object definition => .object (extend definition sibling)
  | other => other

def type_allows (schema_type : Option JsonValue) (enum_type : String) : Bool :=
  match schema_type with
  | none | some .null => true
  | some (.string name) => name = enum_type
  | some (.array types) => types.any fun value => value.as_str = some enum_type
  | some _ => false

def isString (value : JsonValue) : Bool := value.as_str.isSome

def isBoolean : JsonValue → Bool
  | .bool _ => true
  | _ => false

def isFiniteNumber : JsonValue → Bool
  | .number (.Float bits) => bits.toNat / 2 ^ 52 % 2 ^ 11 ≠ 2 ^ 11 - 1
  | .number _ => true
  | _ => false

def isWhole : JsonValue → Bool
  | .number n => isInteger n
  | _ => false

def enum_type (values : List JsonValue) (schema_type : Option JsonValue) : Option String :=
  if values = [] then none
  else if type_allows schema_type "string" && values.all isString then some "string"
  else
    let numeric := (type_allows schema_type "number" || type_allows schema_type "integer") && values.all isFiniteNumber
    if numeric && type_allows schema_type "number" then some "number"
    else if numeric && values.all isWhole then some "integer"
    else if type_allows schema_type "boolean" && values.all isBoolean then some "boolean"
    else none

/-- The `null` among the types of a list. -/
def listsNull : Option JsonValue → Bool
  | some (.array types) => types.any fun value => value.as_str = some "null"
  | _ => false

def isList : Option JsonValue → Bool
  | some (.array _) => true
  | _ => false

def isMissing : Option JsonValue → Bool
  | none | some .null => true
  | _ => false

section
variable (p : Primitives)

/-- The text of a member: `to_string` of what is not a string. -/
def enumText (value : JsonValue) : JsonValue :=
  .string (value.as_str.getD (String.ofList (write_compact p value)))

def add_enum_to_schema (values : List JsonValue) (schema_type : Option JsonValue) (result : JsonObject) :
    Except Failure JsonObject :=
  let nullable := listsNull schema_type || (isMissing schema_type && values.any (· = .null))
  let enum_values := if nullable then values.filter (· ≠ .null) else values
  let typed (name : String) :=
    let result := insert result "type" (.string name)
    if isList schema_type then swap_remove result "anyOf" else result
  if values ≠ [] ∧ values.all (· = .null) ∧ type_allows schema_type "null" then .ok (typed "null")
  else
    match enum_type enum_values schema_type with
    | none => unsupported_enum
    | some name =>
      let result := typed name
      let result := if nullable then insert result "nullable" (.bool true) else result
      if name = "string" then .ok (insert result "enum" (.array enum_values))
      else .ok (insert (insert result "format" (.string "enum")) "enum" (.array (enum_values.map (enumText p))))

def non_empty_string (value : Option JsonValue) : Option JsonValue :=
  ((value.bind (·.as_str)).filter (· ≠ "")).map .string

def is_truthy : JsonValue → Bool
  | .null => false
  | .bool value => value
  | .number (.PosInt n) => n ≠ 0
  | .number (.NegInt n) => n ≠ 0
  | .number (.Float bits) => bits.toNat % 2 ^ 63 ≠ 0
  | .string text => text ≠ ""
  | .array _ | .object _ => true

def is_empty_object_schema (object : JsonObject) : Bool :=
  (object.get "type").bind (·.as_str) = some "object" &&
    ((object.get "properties").bind (·.as_object)).all (·.isEmpty) &&
    !(object.get "additionalProperties").any is_truthy

def is_null_schema (schema : JsonValue) : Bool := (schema.get "type").bind (·.as_str) = some "null"

/-- The values of `enum`, else the value of `const`. -/
def enumValues (object : JsonObject) : Option (List JsonValue) :=
  match object.get "enum" with
  | some (.array values) => some values
  | some _ => none
  | none => (object.get "const").map fun value => [value]

/-- A single type is kept. Several become alternatives. -/
def insert_type (schema_type : Option JsonValue) (result : JsonObject) : JsonObject :=
  match schema_type with
  | some (.array types) =>
    let non_null := types.filter fun value => value.as_str ≠ some "null"
    if non_null = [] then insert result "type" (.string "null")
    else
      let result := insert result "anyOf" (.array (non_null.map fun value => .object [("type",value)]))
      if listsNull schema_type then insert result "nullable" (.bool true) else result
  | some (.string name) => if name ≠ "" then insert result "type" (.string name) else result
  | _ => result

def insert_enum (object result : JsonObject) : Except Failure JsonObject :=
  match enumValues object with
  | some values => add_enum_to_schema p values (object.get "type") result
  | none => .ok result

section
variable (convert : JsonValue → Except Failure (Option JsonValue))

def or_null (value : Option JsonValue) : JsonValue := value.getD .null

def convert_all (schemas : List JsonValue) : Except Failure (List JsonValue) :=
  schemas.mapM fun schema => or_null <$> convert schema

def convert_list (schemas : Option JsonValue) : Except Failure (Option JsonValue) :=
  match schemas with
  | some (.array schemas) => (fun converted => some (.array converted)) <$> convert_all convert schemas
  | _ => .ok none

def convert_entries : JsonObject → JsonObject → Except Failure JsonObject
  | [], converted => .ok converted
  | (key,value) :: rest, converted => do convert_entries rest (converted.insert_some key (← convert value))

def convert_properties (properties : Option JsonValue) : Except Failure (Option JsonValue) :=
  match properties with
  | some (.object properties) => (fun converted => some (.object converted)) <$> convert_entries convert properties []
  | _ => .ok none

def convert_items (items : Option JsonValue) : Except Failure (Option JsonValue) :=
  match items with
  | some (.array items) => convert_list convert (some (.array items))
  | some .null | none => .ok none
  | some items => convert items

/-- Alternatives without null are kept. A lone one beside null is merged into the schema. -/
def insert_any_of (any_of : Option JsonValue) (result : JsonObject) : Except Failure JsonObject :=
  match any_of with
  | some (.array any_of) =>
    if any_of.any is_null_schema then
      match any_of.filter fun schema => !is_null_schema schema with
      | [schema] => do
        match ← convert schema with
        | some (.object converted) => return (insert result "nullable" (.bool true)).extend converted
        | _ => return result
      | non_null => do
        let converted ← convert_all convert non_null
        return insert (insert result "anyOf" (.array converted)) "nullable" (.bool true)
    else do
      let converted ← convert_all convert any_of
      return insert result "anyOf" (.array converted)
  | _ => .ok result

def convert_object (object : JsonObject) : Except Failure JsonObject := do
  let result := insert_some [] "description" (non_empty_string (object.get "description"))
  let result := insert_some result "required" ((object.get "required").filter (· ≠ .null))
  let result := insert_some result "format" (non_empty_string (object.get "format"))
  let result := insert_type (object.get "type") result
  let result ← insert_enum p object result
  let result := insert_some result "properties" (← convert_properties convert (object.get "properties"))
  let result := insert_some result "items" (← convert_items convert (object.get "items"))
  let result := insert_some result "allOf" (← convert_list convert (object.get "allOf"))
  let result ← insert_any_of convert (object.get "anyOf") result
  let result := insert_some result "oneOf" (← convert_list convert (object.get "oneOf"))
  return ["minLength","minItems","maxItems"].foldl (fun result key => insert_some result key (object.get key)) result

end

def convert_definition : Nat → JsonValue → Bool → Context → Except Failure (Option JsonValue)
  | 0, _, _, _ => .error .Depth
  | _ + 1, .bool true, _, _ => .ok (some (.object []))
  | _ + 1, .bool false, _, _ => false_schema
  | n + 1, .object object, is_root, context =>
    match (JsonObject.get object "$ref").bind (·.as_str) with
    | some reference => do
      let (definition,key) ← referenced_definition reference context
      if key ∈ context.resolving then recursive_reference reference
      else convert_definition n (merge_siblings object definition) is_root (context.push key)
    | none =>
      if is_empty_object_schema object then
        if is_root then .ok none
        else
          .ok (some (.object (insert_some [("type",.string "object")] "description"
            (non_empty_string (JsonObject.get object "description")))))
      else (fun result => some (.object result)) <$>
        convert_object p (fun schema => convert_definition n schema false context) object
  | _ + 1, _, _, _ => .ok none

end

def rootContext (schema : JsonValue) : Context where
  definitions := (schema.get "definitions").bind (·.as_object)
  dollar_definitions := (schema.get "$defs").bind (·.as_object)
  resolving := []

end Google.JsonSchema

end Ferrin
