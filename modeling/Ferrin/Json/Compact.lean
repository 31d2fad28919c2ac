import Ferrin.Fingerprint
import Ferrin.Library.JsonText

/-!
The compact text of a JSON value, in the grammar of JSON texts.
-/
namespace Ferrin
open JsonText (Compact Chars Number Items Members Member HexUnit)

mutual

/-- `Value::to_string`. -/
def write_compact (p : Primitives) : JsonValue → List Char
  | .null => ['n','u','l','l']
  | .bool true => ['t','r','u','e']
  | .bool false => ['f','a','l','s','e']
  | .number n => number_text p n
  | .string text => quoted text
  | .array items => '[' :: (commas (compact_items p items) ++ [']'])
  | .object entries => '\x7b' :: (commas (compact_entries p entries) ++ ['\x7d'])

def compact_items (p : Primitives) : List JsonValue → List (List Char)
  | [] => []
  | item :: rest => write_compact p item :: compact_items p rest

def compact_entries (p : Primitives) : List (String × JsonValue) → List (List Char)
  | [] => []
  | (key,value) :: rest => (quoted key ++ ':' :: write_compact p value) :: compact_entries p rest

end

mutual

def denoted (p : Primitives) : JsonValue → JsonText.Value
  | .null => .null
  | .bool value => .bool value
  | .number n => .number (number_text p n)
  | .string text => .string text.toList
  | .array items => .array (denoted_items p items)
  | .object entries => .object (denoted_entries p entries)

def denoted_items (p : Primitives) : List JsonValue → List JsonText.Value
  | [] => []
  | item :: rest => denoted p item :: denoted_items p rest

def denoted_entries (p : Primitives) : List (String × JsonValue) → List (List Char × JsonText.Value)
  | [] => []
  | (key,value) :: rest => (key.toList,denoted p value) :: denoted_entries p rest

end

def Finite (bits : UInt64) : Prop := bits.toNat / 2 ^ 52 % 2 ^ 11 ≠ 2 ^ 11 - 1

mutual

/-- Values whose floats are finite, as `serde_json` holds them. -/
def FloatsFinite : JsonValue → Prop
  | .number (.Float bits) => Finite bits
  | .array items => ItemsFinite items
  | .object entries => EntriesFinite entries
  | _ => True

def ItemsFinite : List JsonValue → Prop
  | [] => True
  | item :: rest => FloatsFinite item ∧ ItemsFinite rest

def EntriesFinite : List (String × JsonValue) → Prop
  | [] => True
  | (_,value) :: rest => FloatsFinite value ∧ EntriesFinite rest

end

def Primitives.WritesFloats (p : Primitives) : Prop := ∀ bits, Finite bits → Number (p.float_text bits)

theorem hexValue_hexDigit (n : Nat) (digit : n < 16) : JsonText.hexValue (hexDigit n) = some n :=
  (by decide : ∀ n : Fin 16, JsonText.hexValue (hexDigit n) = some n.val) ⟨n,digit⟩

theorem chars_escape (c : Char) : Chars (escape_char c) [c] := by
  unfold escape_char
  split_ifs with quote slash printed backspace tab newline feed return_
  · exact .short (by rw [quote]; rfl) .nil
  · exact .short (by rw [slash]; rfl) .nil
  · exact .plain ⟨quote,slash,printed⟩ .nil
  · exact .short (by rw [← Char.ofNat_toNat c,backspace]; rfl) .nil
  · exact .short (by rw [← Char.ofNat_toNat c,tab]; rfl) .nil
  · exact .short (by rw [← Char.ofNat_toNat c,newline]; rfl) .nil
  · exact .short (by rw [← Char.ofNat_toNat c,feed]; rfl) .nil
  · exact .short (by rw [← Char.ofNat_toNat c,return_]; rfl) .nil
  · have small : c.toNat < 32 := by omega
    have hex : HexUnit ['0','0',hexDigit (c.toNat / 16),hexDigit (c.toNat % 16)] c.toNat := by
      refine ⟨_,_,_,_,0,0,_,_,rfl,rfl,rfl,hexValue_hexDigit _ (by omega),hexValue_hexDigit _ (by omega),by omega⟩
    have single : ¬ JsonText.HighSurrogate c.toNat ∧ ¬ JsonText.LowSurrogate c.toNat := by
      unfold JsonText.HighSurrogate JsonText.LowSurrogate
      omega
    have spelled := Chars.unit hex single .nil
    rwa [Char.ofNat_toNat] at spelled

theorem chars_quoted (text : List Char) : Chars (text.flatMap escape_char) text := by
  induction text with
  | nil => exact .nil
  | cons c _ ih => exact (chars_escape c).append ih

theorem number_number_text {p : Primitives} (floats : p.WritesFloats) {n : JsonNumber}
    (finite : FloatsFinite (.number n)) : Number (number_text p n) := by
  cases n with
  | PosInt n =>
    rw [number_text,show (toString n.toNat).toList = Nat.toDigits 10 n.toNat from Nat.toList_repr]
    exact JsonText.number_toDigits _
  | NegInt n =>
    rw [number_text]
    cases n.toInt with
    | ofNat m =>
      rw [show (toString (Int.ofNat m)).toList = Nat.toDigits 10 m from Nat.toList_repr]
      exact JsonText.number_toDigits m
    | negSucc m =>
      have minus : (toString (Int.negSucc m)).toList = '-' :: Nat.toDigits 10 (m + 1) := by
        simp [toString,Int.repr,Nat.toList_repr]
      rw [minus]
      exact JsonText.number_minus (m + 1)
  | Float bits => exact floats bits finite

mutual

theorem compact_denoted {p : Primitives} (floats : p.WritesFloats) : ∀ v : JsonValue, FloatsFinite v →
    Compact (write_compact p v) (denoted p v)
  | .null, _ => .null
  | .bool true, _ => .true
  | .bool false, _ => .false
  | .number n, finite => .number (number_number_text floats finite)
  | .string text, _ => .string (chars_quoted text.toList)
  | .array [], _ => .emptyArray JsonText.spaces_nil
  | .array (item :: rest), finite => .array
    (JsonText.items_commas (compact_items_denoted floats (item :: rest) finite) (by simp [compact_items]))
  | .object [], _ => .emptyObject JsonText.spaces_nil
  | .object (entry :: rest), finite => .object
    (JsonText.members_commas (compact_entries_denoted floats (entry :: rest) finite) (by simp [compact_entries]))

theorem compact_items_denoted {p : Primitives} (floats : p.WritesFloats) : ∀ items : List JsonValue, ItemsFinite items →
    List.Forall₂ Compact (compact_items p items) (denoted_items p items)
  | [], _ => .nil
  | item :: rest, ⟨first, others⟩ =>
    .cons (compact_denoted floats item first) (compact_items_denoted floats rest others)

theorem compact_entries_denoted {p : Primitives} (floats : p.WritesFloats) :
    ∀ entries : List (String × JsonValue), EntriesFinite entries →
      List.Forall₂ Member (compact_entries p entries) (denoted_entries p entries)
  | [], _ => .nil
  | (key,value) :: rest, ⟨first, others⟩ =>
    .cons ⟨_,_,by simp [quoted],chars_quoted key.toList,compact_denoted floats value first⟩
      (compact_entries_denoted floats rest others)

end

end Ferrin
