import Ferrin.Json.Pointer
import Ferrin.Json.Positions

/-!
Item schemas inside of the wrapper of an array output, with the local references
of the item schema relocated.
-/
namespace Ferrin.Output
open JsonObject
open JsonObject (insert_some modify)

/-- A non-fragment `$id` creates a resource with its own reference root. -/
def declares_resource (object : JsonObject) : Bool :=
  ((object.get "$id").bind (·.as_str)).any fun id => !(id.toList.takeWhile (· ≠ '#')).isEmpty

def referenceKeywords : List String := ["$ref","$dynamicRef","$recursiveRef"]

def recordKeywords : List String :=
  ["properties","patternProperties","definitions","$defs","dependentSchemas","dependencies"]

def listKeywords : List String := ["allOf","anyOf","oneOf","prefixItems"]

def schemaKeywords : List String :=
  ["items","additionalItems","additionalProperties","contains","propertyNames","not","if","then","else","unevaluatedItems",
    "unevaluatedProperties","contentSchema"]

/-- A reference to the document now refers to what stands at `root`. -/
def relocate_reference (root reference : String) : String :=
  if reference = "#" then root
  else
    match reference.toList.dropPrefix? ['#','/'] with
    | some pointer => root ++ "/" ++ String.ofList pointer
    | none => reference

section
variable (relocate : JsonValue → JsonValue)

def relocate_string (root : String) : JsonValue → JsonValue
  | .string reference => .string (relocate_reference root reference)
  | other => other

def relocate_record : JsonValue → JsonValue
  | .object children => .object (children.map fun (name,child) => (name,relocate child))
  | other => other

def relocate_list : JsonValue → JsonValue
  | .array children => .array (children.map relocate)
  | other => other

def relocate_schema : JsonValue → JsonValue
  | .array children => .array (children.map relocate)
  | schema => relocate schema

end

/-- Relocates document-relative pointers while respecting nested resources. Schema positions are visited only. -/
def relocate (root : String) : Nat → JsonValue → JsonValue
  | n + 1, .object object =>
    if declares_resource object then .object object
    else
      let object := referenceKeywords.foldl (fun object key => modify object key (relocate_string root)) object
      let object := recordKeywords.foldl (fun object key => modify object key (relocate_record (relocate root n))) object
      let object := listKeywords.foldl (fun object key => modify object key (relocate_list (relocate root n))) object
      .object (schemaKeywords.foldl (fun object key => modify object key (relocate_schema (relocate root n))) object)
  | _, schema => schema

structure ArrayOutput where
  element : JsonValue
  min_items : Option UInt64
  max_items : Option UInt64

def ITEMS_ROOT : String := "#/properties/elements/items"

def ArrayOutput.elements_schema (output : ArrayOutput) : JsonObject :=
  let element := relocate ITEMS_ROOT (output.element.depth + 1) output.element
  let elements : JsonObject := [("type",.string "array"),("items",element)]
  let elements := insert_some elements "minItems" (output.min_items.map fun min => .number (.PosInt min))
  insert_some elements "maxItems" (output.max_items.map fun max => .number (.PosInt max))

def ArrayOutput.wrapper_schema (output : ArrayOutput) : JsonValue :=
  .object [("$schema",.string "http://json-schema.org/draft-07/schema#"),("type",.string "object"),
    ("properties",.object [("elements",.object output.elements_schema)]),("required",.array [.string "elements"]),
    ("additionalProperties",.bool false)]

end Ferrin.Output
