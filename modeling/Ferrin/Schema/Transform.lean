import Ferrin.Schema.TransformRefs

/-!
Rewriting of JSON Schemas for OpenAI strict mode.
-/
namespace Ferrin.Schema
open JsonObject

inductive SchemaError where
  | UnsupportedTransform (transform keyword : String)
  deriving DecidableEq

/-! ### Dictionaries -/

/-- A schema of its own, or `true`. -/
def unsupported : Option JsonValue → Bool
  | some (.object _) | some (.bool true) => true
  | _ => false

def mapKeywords : List String := ["properties","definitions","$defs","dependentSchemas","dependencies"]

def valueKeywords : List String :=
  ["items","additionalItems","anyOf","allOf","oneOf","prefixItems","not","if","then","else","contains","unevaluatedItems",
    "unevaluatedProperties"]

section
variable (validate : JsonValue → Except SchemaError Unit) (obj : JsonObject)

def validate_keyword (keyword : String) : Except SchemaError Unit :=
  if unsupported (obj.get keyword) then throw (.UnsupportedTransform "openai strict" keyword) else return ()

def validate_map (key : String) : Except SchemaError Unit :=
  match obj.get key with
  | some (.object map) => map.forM fun (_,child) => validate child
  | _ => return ()

def validate_value (key : String) : Except SchemaError Unit :=
  match obj.get key with
  | some (.array children) => children.forM validate
  | some child => validate child
  | none => return ()

def validate_object : Except SchemaError Unit := do
  ["additionalProperties","patternProperties"].forM (validate_keyword obj)
  mapKeywords.forM (validate_map validate obj)
  valueKeywords.forM (validate_value validate obj)

end

/-- Each level of schemas takes one from the number of levels. -/
def validate_strict_maps : Nat → JsonValue → Except SchemaError Unit
  | n + 1, .object obj => validate_object (validate_strict_maps n) obj
  | _, _ => return ()

/-- Null must bypass every constraint, including `enum`, `const` and `not`. -/
def make_nullable (property : JsonValue) : JsonValue :=
  .object [("anyOf",.array [property,.object [("type",.string "null")]])]

def is_object (obj : JsonObject) : Bool :=
  match obj.get "type" with
  | some (.string kind) => kind = "object"
  | some (.array kinds) => kinds.any fun kind => kind.as_str = some "object"
  | _ => (obj.get "properties").isSome

def required_names (obj : JsonObject) : List String :=
  (((obj.get "required").bind (·.as_array)).getD []).filterMap (·.as_str)

def require_properties (required : List String) (path : String) (properties : JsonObject) :
    StateM (List String) JsonObject :=
  properties.mapM fun (name,property) =>
    if name ∈ required then pure (name,property)
    else do
      modify (· ++ [child_path (child_path path "properties") name])
      return (name,make_nullable property)

def close_object (obj : JsonObject) (path : String) : StateM (List String) JsonObject := do
  let required := required_names obj
  let obj ←
    match obj.get "properties" with
    | some (.object properties) => do
      let names := properties.map (·.1)
      let properties ← require_properties required path properties
      pure ((obj.insert "properties" (.object properties)).insert "required" (.array (names.map .string)))
    | _ => pure obj
  return obj.insert "additionalProperties" (.bool false)

/-- What a schema gets before the schemas in it are visited. -/
def rewrite_object (obj : JsonObject) (path : String) : StateM (List String) JsonObject :=
  let obj := obj.swap_remove "propertyNames"
  if is_object obj then close_object obj path else pure obj

def rewrite_openai_strict : Nat → JsonValue → String → StateM (List String) JsonValue
  | n + 1, .object obj, path => do
    let obj ← rewrite_object obj path
    .object <$> visit_children (rewrite_openai_strict n) obj path
  | _, schema, _ => return schema

section
variable {Url : Type} [DecidableEq Url] (urls : Urls Url)

/-- A property that becomes nullable adds one level to its schema, so that one level more suffices for the rewrite. -/
def to_openai_strict (schema : JsonValue) : Except SchemaError JsonValue := do
  validate_strict_maps (schema.depth + 1) schema
  let (schema,moves) := (rewrite_openai_strict (schema.depth + 1) schema "").run []
  return rewrite_local_references urls schema moves

end

end Ferrin.Schema
