import Mathlib.Algebra.Order.Ring.Nat
import Mathlib.Data.List.Basic

/-!
JSON values as `serde_json` holds them, with objects in insertion order.
-/
namespace Ferrin

inductive JsonNumber where
  | PosInt (n : UInt64)
  | NegInt (n : Int64)
  | Float (bits : UInt64)
  deriving DecidableEq

inductive JsonValue where
  | null
  | bool (value : Bool)
  | number (value : JsonNumber)
  | string (value : String)
  | array (values : List JsonValue)
  | object (entries : List (String × JsonValue))

abbrev JsonObject := List (String × JsonValue)

mutual

/-- Equality of values, decided member by member. -/
def JsonValue.decEq : (a b : JsonValue) → Decidable (a = b)
  | .null, .null => .isTrue rfl
  | .bool a, .bool b => decidable_of_iff (a = b) (by simp)
  | .number a, .number b => decidable_of_iff (a = b) (by simp)
  | .string a, .string b => decidable_of_iff (a = b) (by simp)
  | .array a, .array b => have := decEqValues a b; decidable_of_iff (a = b) (by simp)
  | .object a, .object b => have := decEqEntries a b; decidable_of_iff (a = b) (by simp)
  | .null, .bool _ | .null, .number _ | .null, .string _ | .null, .array _ | .null, .object _
  | .bool _, .null | .bool _, .number _ | .bool _, .string _ | .bool _, .array _ | .bool _, .object _
  | .number _, .null | .number _, .bool _ | .number _, .string _ | .number _, .array _ | .number _, .object _
  | .string _, .null | .string _, .bool _ | .string _, .number _ | .string _, .array _ | .string _, .object _
  | .array _, .null | .array _, .bool _ | .array _, .number _ | .array _, .string _ | .array _, .object _
  | .object _, .null | .object _, .bool _ | .object _, .number _ | .object _, .string _ | .object _, .array _ =>
    .isFalse (by simp)

def decEqValues : (a b : List JsonValue) → Decidable (a = b)
  | [], [] => .isTrue rfl
  | a :: as, b :: bs =>
    have := JsonValue.decEq a b
    have := decEqValues as bs
    decidable_of_iff (a = b ∧ as = bs) (by simp)
  | [], _ :: _ | _ :: _, [] => .isFalse (by simp)

def decEqEntries : (a b : List (String × JsonValue)) → Decidable (a = b)
  | [], [] => .isTrue rfl
  | (k,a) :: as, (l,b) :: bs =>
    have := JsonValue.decEq a b
    have := decEqEntries as bs
    decidable_of_iff (k = l ∧ a = b ∧ as = bs) (by simp [and_assoc])
  | [], _ :: _ | _ :: _, [] => .isFalse (by simp)

end

instance : DecidableEq JsonValue := JsonValue.decEq

namespace JsonObject

def get (o : JsonObject) (key : String) : Option JsonValue := o.lookup key

/-- `Map::insert`: an existing key keeps its place. -/
def insert (o : JsonObject) (key : String) (value : JsonValue) : JsonObject :=
  if (o.lookup key).isSome then o.map fun entry => if entry.1 = key then (key,value) else entry
  else o ++ [(key,value)]

def extend (o later : JsonObject) : JsonObject := later.foldl (fun o entry => insert o entry.1 entry.2) o

end JsonObject

namespace JsonValue

def as_str : JsonValue → Option String
  | .string value => some value
  | _ => none

def as_array : JsonValue → Option (List JsonValue)
  | .array values => some values
  | _ => none

def as_object : JsonValue → Option JsonObject
  | .object entries => some entries
  | _ => none

def as_u64 : JsonValue → Option Nat
  | .number (.PosInt n) => some n.toNat
  | _ => none

/-- `Value::get` with a key. -/
def get (v : JsonValue) (key : String) : Option JsonValue := v.as_object.bind (JsonObject.get · key)

end JsonValue

end Ferrin
