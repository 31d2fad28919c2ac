import Ferrin.Json.Object

/-!
JSON pointers in URI fragments: the location that a local reference names, and
the value that stands at a location.
-/
namespace Ferrin.JsonPointer
open List

/-! ### Values at locations -/

/-- The position in an array that a token names, which has no superfluous zeros. -/
def index (token : String) : Option Nat :=
  let n := Nat.ofDigitChars 10 token.toList 0
  if toString n = token then some n else none

@[simp] theorem index_repr (n : Nat) : index n.repr = some n := by
  have digits : Nat.ofDigitChars 10 n.repr.toList 0 = n := by rw [Nat.toList_repr,Nat.ofDigitChars_ten_toDigits]
  rw [index,digits]
  exact if_pos rfl

def member (token : String) : JsonValue → Option JsonValue
  | .object o => JsonObject.get o token
  | .array items => (index token).bind (items[·]?)
  | _ => none

def valueAt : JsonValue → List String → Option JsonValue
  | v,[] => some v
  | v,token :: rest => (member token v).bind (valueAt · rest)

theorem valueAt_append (v : JsonValue) (first second : List String) :
    valueAt v (first ++ second) = (valueAt v first).bind (valueAt · second) := by
  induction first generalizing v with
  | nil => rfl
  | cons _ _ ih =>
    rw [cons_append,valueAt,valueAt,Option.bind_assoc]
    exact congrArg _ (funext ih)

def hexDigit (b : UInt8) : Option Nat :=
  let n := b.toNat
  if 48 ≤ n ∧ n ≤ 57 then some (n - 48)
  else if 97 ≤ n ∧ n ≤ 102 then some (n - 87)
  else if 65 ≤ n ∧ n ≤ 70 then some (n - 55)
  else none

def percentDecode : List UInt8 → Option (List UInt8)
  | [] => some []
  | byte :: rest =>
    if byte.toNat = 37 then
      match rest with
      | high :: low :: rest => do
        let high ← hexDigit high
        let low ← hexDigit low
        return (high * 16 + low).toUInt8 :: (← percentDecode rest)
      | _ => none
    else (byte :: ·) <$> percentDecode rest

def replaceEscape (digit c : Char) : List Char → List Char
  | '~' :: d :: rest => if d = digit then c :: replaceEscape digit c rest else '~' :: replaceEscape digit c (d :: rest)
  | other :: rest => other :: replaceEscape digit c rest
  | [] => []

def unescape (text : String) : String := String.ofList (replaceEscape '0' '~' (replaceEscape '1' '/' text.toList))

def token (bytes : List UInt8) : Option String := unescape <$> String.fromUTF8? ⟨bytes.toArray⟩

def tokens : List UInt8 → Option (List String)
  | [] => some []
  | byte :: rest => if byte = 47 then (rest.splitOn 47).mapM token else none

def bytes (text : String) : List UInt8 := text.toUTF8.data.toList

def location (reference : String) : Option (List String) :=
  match bytes reference with
  | byte :: fragment => if byte = 35 then (percentDecode fragment).bind tokens else none
  | [] => none

theorem bytes_append (first second : String) : bytes (first ++ second) = bytes first ++ bytes second := by
  simp [bytes,String.toUTF8,String.toByteArray_append,ByteArray.data_append]

theorem percentDecode_plain {byte : UInt8} (safe : byte.toNat ≠ 37) (rest : List UInt8) :
    percentDecode (byte :: rest) = (byte :: ·) <$> percentDecode rest := by
  rw [percentDecode.eq_def]
  exact if_neg safe

theorem percentDecode_append {plain : List UInt8} (safe : ∀ byte ∈ plain, byte.toNat ≠ 37) (rest : List UInt8) :
    percentDecode (plain ++ rest) = (plain ++ ·) <$> percentDecode rest := by
  induction plain with
  | nil => simp
  | cons byte _ ih =>
    rw [cons_append,percentDecode_plain (safe byte mem_cons_self),
      ih fun b mem => safe b (mem_cons_of_mem byte mem)]
    simp [Function.comp_def]

theorem tokens_append {first : List UInt8} {names : List String} (known : tokens first = some names) (rest : List UInt8) :
    tokens (first ++ 47 :: rest) = (tokens (47 :: rest)).map (names ++ ·) := by
  cases first with
  | nil =>
    obtain rfl := Option.some.inj known
    simp
  | cons =>
    rw [tokens] at known
    split_ifs at known with slash
    subst slash
    rw [cons_append,tokens,if_pos rfl,splitOn_append_cons_self,mapM_append,known,tokens,if_pos rfl]
    cases (rest.splitOn 47).mapM token <;> rfl

theorem location_below {root : String} {path : List UInt8} {names : List String} (spelled : bytes root = 35 :: path)
    (safe : ∀ byte ∈ path, byte.toNat ≠ 37) (known : tokens path = some names) (pointer : String) :
    location (root ++ "/" ++ pointer) = (location ("#/" ++ pointer)).map (names ++ ·) := by
  have slash : bytes "/" = [47] := by decide
  have hash : bytes "#/" = [35,47] := by decide
  rw [location,location,bytes_append,bytes_append,bytes_append,spelled,slash,hash]
  simp only [cons_append,nil_append,append_assoc,if_true]
  rw [percentDecode_append safe,percentDecode_plain (by decide)]
  cases percentDecode (bytes pointer) with
  | none => rfl
  | some decoded => exact tokens_append known decoded

theorem location_root {root : String} {path : List UInt8} {names : List String} (spelled : bytes root = 35 :: path)
    (safe : ∀ byte ∈ path, byte.toNat ≠ 37) (known : tokens path = some names) : location root = some names := by
  have whole := percentDecode_append safe []
  rw [append_nil] at whole
  rw [location,spelled]
  simp only [if_true,whole,percentDecode]
  simpa using known

end Ferrin.JsonPointer
