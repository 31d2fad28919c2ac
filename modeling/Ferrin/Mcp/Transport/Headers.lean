import Ferrin.GenerateText.ParseToolCall
import Ferrin.Library.Base64
import Ferrin.Library.Encoded
import Ferrin.Library.Trim
import Ferrin.Mcp.Client

/-!
Tool parameters mirrored into request headers. Text that may not stand in a header,
or would be taken for an encoded one, is wrapped and written in base64.
-/
namespace Ferrin.Mcp.Transport
open List
open GenerateText (is_whitespace)
open Encoded Trim
open Base64 (encode)

def base64_mark : List Char := "=?base64?".toList
def end_mark : List Char := "?=".toList

def is_plain (character : Char) : Bool := character = '\t' || (0x20 ≤ character.toNat && character.toNat ≤ 0x7e)

def looks_encoded (value : List Char) : Bool := base64_mark.isPrefixOf value && end_mark.isSuffixOf value

/-- Plain text is sent as it is, everything else as `=?base64?<data>?=`, encoded by the standard engine. -/
def encode_header_value (standard : List UInt8 → List Char) (value : List Char) : List Char :=
  if value.all is_plain && decide (trim is_whitespace value = value) && !looks_encoded value then value
  else base64_mark ++ standard (utf8 value) ++ end_mark

inductive HeaderValueType where
  | Boolean
  | Integer
  | String

structure HeaderBinding where
  header_name : String
  path : List String
  value_type : HeaderValueType

def value_at (arguments : JsonObject) : (path : List String) → Option JsonValue
  | [] => none
  | first :: rest => do
    let current ← arguments.get first
    rest.foldlM (fun current segment => do (← current.as_object).get segment) current

def invalid_header_type (binding : HeaderBinding) : McpError :=
  .InvalidArgument ("tool argument \"" ++ ".".intercalate binding.path ++ "\" does not match its x-mcp-header type")

def header_text (integer_text : JsonNumber → Option String) : HeaderValueType → JsonValue → Option String
  | .String,.string text => some text
  | .Boolean,.bool flag => some (toString flag)
  | .Integer,.number number => integer_text number
  | _,_ => none

def tool_headers (standard : List UInt8 → List Char) (integer_text : JsonNumber → Option String)
    (arguments : JsonObject) : List HeaderBinding → Except McpError (List (String × List Char))
  | [] => .ok []
  | binding :: rest =>
    match (value_at arguments binding.path).filter (· ≠ .null) with
    | none => tool_headers standard integer_text arguments rest
    | some value =>
      match header_text integer_text binding.value_type value with
      | none => .error (invalid_header_type binding)
      | some text => do
        let headers ← tool_headers standard integer_text arguments rest
        return ("Mcp-Param-" ++ binding.header_name,encode_header_value standard text.toList) :: headers

structure Standard (standard : List UInt8 → List Char) : Prop where
  alphabet : ∀ bytes, ∀ c ∈ standard bytes, c.isAlphanum = true ∨ c = '+' ∨ c = '/' ∨ c = '='
  injective : Function.Injective standard

theorem standard_base64 : Standard (encode true) where
  alphabet := by
    intro bytes c mem
    rcases Base64.mem_encode mem with ⟨n,bound,rfl⟩ | ⟨_,rfl⟩
    · rcases Base64.digit_alphabet bound with letter | plus | slash
      · exact .inl letter
      · exact .inr (.inl plus)
      · exact .inr (.inr (.inl slash))
    · exact .inr (.inr (.inr rfl))
  injective := Base64.encode_injective true

/-- A value that may stand in a header: of legal characters, and without whitespace at its ends. -/
structure Legal (value : List Char) : Prop where
  plain : ∀ c ∈ value, is_plain c = true
  trimmed : trim is_whitespace value = value

section
variable {standard : List UInt8 → List Char}

theorem plain_alphanum {c : Char} (letter : c.isAlphanum = true) : is_plain c = true := by
  have bounds := Encoded.alphanum_ranges letter
  simp only [is_plain,Bool.or_eq_true,Bool.and_eq_true,decide_eq_true_eq]
  omega

theorem plain_standard (lawful : Standard standard) {bytes : List UInt8} {c : Char} (mem : c ∈ standard bytes) :
    is_plain c = true := by
  rcases lawful.alphabet bytes c mem with letter | rfl | rfl | rfl
  · exact plain_alphanum letter
  · decide
  · decide
  · decide

theorem looks_encoded_wrapped (text : List Char) : looks_encoded (base64_mark ++ text ++ end_mark) = true := by
  have front : base64_mark <+: base64_mark ++ text ++ end_mark := ⟨text ++ end_mark,by simp⟩
  have back : end_mark <:+ base64_mark ++ text ++ end_mark := suffix_append _ _
  rw [looks_encoded,Bool.and_eq_true]
  exact ⟨ List.isPrefixOf_iff_prefix.mpr front,List.isSuffixOf_iff_suffix.mpr back⟩

theorem legal_wrapped (lawful : Standard standard) (bytes : List UInt8) :
    Legal (base64_mark ++ standard bytes ++ end_mark) := by
  constructor
  · intro c mem
    rcases List.mem_append.mp mem with mem | last
    · rcases List.mem_append.mp mem with first | inside
      · exact List.all_eq_true.mp (by decide : base64_mark.all is_plain = true) c first
      · exact plain_standard lawful inside
    · exact List.all_eq_true.mp (by decide : end_mark.all is_plain = true) c last
  · have first : Solid is_whitespace base64_mark := .of_all (by decide) (by decide)
    have last : Solid is_whitespace end_mark := .of_all (by decide) (by decide)
    have kept := @rdropWhile_solid _ is_whitespace (standard bytes) [] end_mark last
    rw [append_assoc,trim_solid first]
    rw [append_nil,rdropWhile_nil,append_nil] at kept
    rw [kept]

theorem encode_header_value_legal (lawful : Standard standard) (value : List Char) :
    Legal (encode_header_value standard value) := by
  rw [encode_header_value]
  split
  · rename_i plain
    simp only [Bool.and_eq_true,all_eq_true,decide_eq_true_eq] at plain
    exact ⟨plain.1.1,plain.1.2⟩
  · exact legal_wrapped lawful _

theorem encode_header_value_cases (standard : List UInt8 → List Char) (value : List Char) :
    (encode_header_value standard value = value ∧ looks_encoded value = false) ∨
      encode_header_value standard value = base64_mark ++ standard (utf8 value) ++ end_mark := by
  rw [encode_header_value]
  split
  · rename_i plain
    simp only [Bool.and_eq_true,Bool.not_eq_true'] at plain
    exact .inl ⟨rfl,plain.2⟩
  · exact .inr rfl

theorem encode_header_value_injective (lawful : Standard standard) :
    Function.Injective (encode_header_value standard) := by
  intro first second same
  have looks (value : List Char) := looks_encoded_wrapped (standard (utf8 value))
  rcases encode_header_value_cases standard first with ⟨one,plain⟩ | one <;>
    rcases encode_header_value_cases standard second with ⟨two,plain'⟩ | two <;> rw [one,two] at same
  · exact same
  · rw [same,looks] at plain
    cases plain
  · rw [← same,looks] at plain'
    cases plain'
  · exact utf8_injective (lawful.injective (append_cancel_left (append_cancel_right same)))

/-- Encoded values may stand in headers and are told apart; one that looks encoded is encoded once more. -/
theorem header_values_safe (standard : List UInt8 → List Char) (lawful : Standard standard) :
    (∀ value, Legal (encode_header_value standard value)) ∧
    Function.Injective (encode_header_value standard) ∧
    ∀ value, looks_encoded value = true →
      encode_header_value standard value = base64_mark ++ standard (utf8 value) ++ end_mark := by
  refine ⟨encode_header_value_legal lawful,encode_header_value_injective lawful,?_⟩
  intro value looks
  rcases encode_header_value_cases standard value with ⟨_,plain⟩ | wrapped
  · rw [looks] at plain
    cases plain
  · exact wrapped

end

/-- A line break and a text that looks encoded are both wrapped, and stay apart. -/
theorem header_values_safe_break :
    encode_header_value (encode true) "a\r\nX: 1".toList = "=?base64?YQ0KWDogMQ==?=".toList ∧
    encode_header_value (encode true) "=?base64?YQ0KWDogMQ==?=".toList =
      "=?base64?PT9iYXNlNjQ/WVEwS1dEb2dNUT09Pz0=?=".toList ∧
    Legal (encode_header_value (encode true) "a\r\nX: 1".toList) ∧
    encode_header_value (encode true) "=?base64?YQ0KWDogMQ==?=".toList ≠
      encode_header_value (encode true) "a\r\nX: 1".toList :=
  have safe := header_values_safe (encode true) standard_base64
  ⟨by decide,by decide,safe.1 _,fun same => absurd (safe.2.1 same) (by decide)⟩

end Ferrin.Mcp.Transport
