import Ferrin.Json
import Mathlib.Data.List.Sort

/-!
Canonical JSON and its digest.
-/
namespace Ferrin

/-- The third-party functions under a fingerprint and a signature. -/
structure Primitives where
  float_text : UInt64 → List Char
  sha256 : List UInt8 → List UInt8
  hmac_sha256 : List UInt8 → List UInt8 → List UInt8
  base64url : List UInt8 → String
  base64url_decode : String → Option (List UInt8)

/-- A hexadecimal digit in lower case. -/
def hexDigit (n : Nat) : Char := Char.ofNat (if n < 10 then 48 + n else 87 + n)

/-- One character of a JSON string as `serde_json` writes it. -/
def escape_char (c : Char) : List Char :=
  if c = '"' then ['\\','"']
  else if c = '\\' then ['\\','\\']
  else if 32 ≤ c.toNat then [c]
  else if c.toNat = 8 then ['\\','b']
  else if c.toNat = 9 then ['\\','t']
  else if c.toNat = 10 then ['\\','n']
  else if c.toNat = 12 then ['\\','f']
  else if c.toNat = 13 then ['\\','r']
  else ['\\','u','0','0',hexDigit (c.toNat / 16),hexDigit (c.toNat % 16)]

def quoted (text : String) : List Char := '"' :: (text.toList.flatMap escape_char ++ ['"'])

def number_text (p : Primitives) : JsonNumber → List Char
  | .PosInt n => (toString n.toNat).toList
  | .NegInt n => (toString n.toInt).toList
  | .Float bits => p.float_text bits

def commas : List (List Char) → List Char := List.intercalate [',']

mutual

def write_canonical (p : Primitives) : JsonValue → List Char
  | .null => ['n','u','l','l']
  | .bool true => ['t','r','u','e']
  | .bool false => ['f','a','l','s','e']
  | .number n => number_text p n
  | .string text => quoted text
  | .array items => '[' :: (commas (write_items p items) ++ [']'])
  | .object entries =>
    let members := (write_entries p entries).insertionSort (·.1 ≤ ·.1)
    '\x7b' :: (commas (members.map fun member => quoted member.1 ++ ':' :: member.2) ++ ['\x7d'])

def write_items (p : Primitives) : List JsonValue → List (List Char)
  | [] => []
  | item :: rest => write_canonical p item :: write_items p rest

def write_entries (p : Primitives) : List (String × JsonValue) → List (String × List Char)
  | [] => []
  | (key,value) :: rest => (key,write_canonical p value) :: write_entries p rest

end

/-- Compact JSON with sorted object keys. -/
def canonical_json (p : Primitives) (value : JsonValue) : String := String.ofList (write_canonical p value)

def bytes (text : String) : List UInt8 := text.toUTF8.data.toList

def hash_canonical (p : Primitives) (value : JsonValue) : String :=
  p.base64url (p.sha256 (bytes (canonical_json p value)))

end Ferrin
