import Ferrin.Json.Object
import Mathlib.Data.List.Forall2

/-!
Validation against a JSON schema: the keywords that both JSON Schema and OpenAPI
have, `nullable`, and references that a function resolves.
-/
namespace Ferrin.JsonSchema
open JsonObject (get)

/-! ### Numbers and types -/

/-- The significand and the exponent of a float, whose size is `significand * 2 ^ exponent / 2 ^ 1075`. -/
def magnitude (bits : UInt64) : Nat × Nat :=
  let exponent := bits.toNat / 2 ^ 52 % 2 ^ 11
  let fraction := bits.toNat % 2 ^ 52
  if exponent = 0 then (fraction,1) else (fraction + 2 ^ 52,exponent)

def isInteger : JsonNumber → Bool
  | .PosInt _ | .NegInt _ => true
  | .Float bits => (magnitude bits).1 * 2 ^ (magnitude bits).2 % 2 ^ 1075 = 0

def limitOf : JsonValue → Option Nat
  | .number (.PosInt n) => some n.toNat
  | .number (.Float bits) =>
    if bits.toNat < 2 ^ 63 ∧ isInteger (.Float bits) then
      some ((magnitude bits).1 * 2 ^ (magnitude bits).2 / 2 ^ 1075)
    else none
  | _ => none

def hasType (name : String) : JsonValue → Bool
  | .null => name = "null"
  | .bool _ => name = "boolean"
  | .number n => name = "number" ∨ (name = "integer" ∧ isInteger n)
  | .string _ => name = "string"
  | .array _ => name = "array"
  | .object _ => name = "object"

section
variable (valid : JsonValue → JsonValue → Bool)

def typeMet (value instance_ : JsonValue) : Bool :=
  match value with
  | .string name => hasType name instance_
  | .array names => names.any fun name => name.as_str.any (hasType · instance_)
  | _ => true

/-- Members are compared as they are held, which is right for strings. -/
def enumMet (value instance_ : JsonValue) : Bool :=
  match value with
  | .array values => instance_ ∈ values
  | _ => true

def requiredMet (value instance_ : JsonValue) : Bool :=
  match value, instance_ with
  | .array names, .object members => names.all fun name => name.as_str.all fun name => (get members name).isSome
  | _, _ => true

def propertiesMet (value instance_ : JsonValue) : Bool :=
  match value, instance_ with
  | .object properties, .object members =>
    properties.all fun (name,schema) => (get members name).all (valid schema)
  | _, _ => true

def itemsMet (value instance_ : JsonValue) : Bool :=
  match value, instance_ with
  | .array schemas, .array values => (schemas.zip values).all fun (schema,value) => valid schema value
  | schema, .array values => values.all (valid schema)
  | _, _ => true

def alternativesMet (decides : List Bool → Bool) (value instance_ : JsonValue) : Bool :=
  match value with
  | .array schemas => decides (schemas.map (valid · instance_))
  | _ => true

def minLengthMet (value instance_ : JsonValue) : Bool :=
  match limitOf value, instance_ with
  | some least, .string text => least ≤ text.length
  | _, _ => true

def itemCountMet (within : Nat → Nat → Bool) (value instance_ : JsonValue) : Bool :=
  match limitOf value, instance_ with
  | some limit, .array values => within limit values.length
  | _, _ => true

/-- The keywords that can reject an instance. -/
def assertions : List String :=
  ["type","enum","required","properties","items","allOf","anyOf","oneOf","minLength","minItems","maxItems"]

def keywordMet (keyword : String) (value instance_ : JsonValue) : Bool :=
  match keyword with
  | "type" => typeMet value instance_
  | "enum" => enumMet value instance_
  | "required" => requiredMet value instance_
  | "properties" => propertiesMet valid value instance_
  | "items" => itemsMet valid value instance_
  | "allOf" => alternativesMet valid (·.all id) value instance_
  | "anyOf" => alternativesMet valid (·.any id) value instance_
  | "oneOf" => alternativesMet valid (fun held => held.count true = 1) value instance_
  | "minLength" => minLengthMet value instance_
  | "minItems" => itemCountMet (fun least length => least ≤ length) value instance_
  | "maxItems" => itemCountMet (fun most length => length ≤ most) value instance_
  | _ => true

def keywordHolds (schema : JsonObject) (instance_ : JsonValue) (keyword : String) : Bool :=
  (get schema keyword).all (keywordMet valid keyword · instance_)

def met (schema : JsonObject) (instance_ : JsonValue) : Bool := assertions.all (keywordHolds valid schema instance_)

end

def isNullable (schema : JsonObject) : Bool := get schema "nullable" = some (.bool true)

/-- Validation, with schemas followed to a depth. A reference counts as one level. -/
def validates (resolve : String → Option JsonValue) : Nat → JsonValue → JsonValue → Bool
  | 0, _, _ => false
  | _ + 1, .bool accepts, _ => accepts
  | n + 1, .object schema, instance_ =>
    match get schema "$ref" with
    | some (.string reference) => (resolve reference).any (validates resolve n · instance_)
    | _ => (isNullable schema && instance_ = .null) || met (validates resolve n) schema instance_
  | _ + 1, _, _ => false

section
variable (resolve : String → Option JsonValue)

def Same (schema other : JsonValue) : Prop :=
  ∃ depth, ∀ n m, depth ≤ n → depth ≤ m → ∀ i, validates resolve n schema i = validates resolve m other i

def Accepts (schema instance_ : JsonValue) : Prop := ∃ depth, ∀ n, depth ≤ n → validates resolve n schema instance_ = true

variable {resolve}

theorem same_lists {schemas others : List JsonValue} (same : List.Forall₂ (Same resolve) schemas others) :
    ∃ depth, ∀ n m, depth ≤ n → depth ≤ m → ∀ i,
      schemas.map (validates resolve n · i) = others.map (validates resolve m · i) := by
  induction same with
  | nil => exact ⟨0,fun _ _ _ _ _ => rfl⟩
  | cons first rest ih =>
    obtain ⟨d,first⟩ := first
    obtain ⟨e,rest⟩ := ih
    refine ⟨max d e,fun n m le le' i => ?_⟩
    rw [List.map_cons,List.map_cons,first n m (by omega) (by omega) i,rest n m (by omega) (by omega) i]

theorem same_members {properties others : JsonObject}
    (same : List.Forall₂ (fun a b => a.1 = b.1 ∧ Same resolve a.2 b.2) properties others) :
    ∃ depth, ∀ n m, depth ≤ n → depth ≤ m → ∀ i,
      propertiesMet (validates resolve n) (.object properties) i = propertiesMet (validates resolve m) (.object others) i := by
  induction same with
  | nil => exact ⟨0,fun _ _ _ _ i => by cases i <;> rfl⟩
  | cons first rest ih =>
    obtain ⟨named,d,first⟩ := first
    obtain ⟨e,rest⟩ := ih
    refine ⟨max d e,fun n m le le' i => ?_⟩
    have rest := rest n m (by omega) (by omega) i
    cases i with
    | object =>
      simp only [propertiesMet,List.all_cons] at rest ⊢
      rw [rest,named,funext (first n m (by omega) (by omega))]
    | _ => rfl

end

end Ferrin.JsonSchema
