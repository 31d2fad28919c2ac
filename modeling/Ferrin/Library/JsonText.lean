import Mathlib.Data.List.Basic

/-!
The grammar of JSON texts and the values they denote. Strings are lists of
characters, numbers are kept as they are written.
-/
namespace Ferrin.JsonText
open List Nat

inductive Value where
  | null
  | bool (value : Bool)
  | number (token : List Char)
  | string (text : List Char)
  | array (items : List Value)
  | object (members : List (List Char × Value))

/-! ### Tokens -/

def Blank (c : Char) : Prop := c = ' ' ∨ c = '\t' ∨ c = '\n' ∨ c = '\r'

def Spaces (text : List Char) : Prop := ∀ c ∈ text, Blank c

def hexValue (c : Char) : Option Nat :=
  if '0' ≤ c ∧ c ≤ '9' then some (c.toNat - 48)
  else if 'a' ≤ c ∧ c ≤ 'f' then some (c.toNat - 87)
  else if 'A' ≤ c ∧ c ≤ 'F' then some (c.toNat - 55)
  else none

structure HexUnit (digits : List Char) (n : Nat) : Prop where
  spelled : ∃ a b c d w x y z, digits = [a,b,c,d] ∧ hexValue a = some w ∧ hexValue b = some x ∧ hexValue c = some y ∧
    hexValue d = some z ∧ n = ((w * 16 + x) * 16 + y) * 16 + z

/-- What a backslash and this character stand for. -/
def shortEscape : Char → Option Char
  | '"' => some '"'
  | '\\' => some '\\'
  | '/' => some '/'
  | 'b' => some (Char.ofNat 8)
  | 'f' => some (Char.ofNat 12)
  | 'n' => some '\n'
  | 'r' => some '\r'
  | 't' => some '\t'
  | _ => none

/-- A character that stands for itself in a string. -/
def Plain (c : Char) : Prop := c ≠ '"' ∧ c ≠ '\\' ∧ 32 ≤ c.toNat

def HighSurrogate (n : Nat) : Prop := 0xd800 ≤ n ∧ n < 0xdc00
def LowSurrogate (n : Nat) : Prop := 0xdc00 ≤ n ∧ n < 0xe000

/-- The characters between the quotes of a string, and the text they stand for. -/
inductive Chars : List Char → List Char → Prop
  | nil : Chars [] []
  | plain {c raw text} (plain : Plain c) (rest : Chars raw text) : Chars (c :: raw) (c :: text)
  | short {e c raw text} (known : shortEscape e = some c) (rest : Chars raw text) : Chars ('\\' :: e :: raw) (c :: text)
  | unit {digits n raw text} (hex : HexUnit digits n) (single : ¬ HighSurrogate n ∧ ¬ LowSurrogate n)
      (rest : Chars raw text) : Chars ('\\' :: 'u' :: (digits ++ raw)) (Char.ofNat n :: text)
  | pair {high m low n raw text} (first : HexUnit high m) (isHigh : HighSurrogate m) (second : HexUnit low n)
      (isLow : LowSurrogate n) (rest : Chars raw text) :
      Chars ('\\' :: 'u' :: (high ++ '\\' :: 'u' :: (low ++ raw)))
        (Char.ofNat (0x10000 + (m - 0xd800) * 0x400 + (n - 0xdc00)) :: text)

def Digits (text : List Char) : Prop := text ≠ [] ∧ ∀ c ∈ text, c.isDigit = true

/-- Digits without a leading zero. -/
def Whole (text : List Char) : Prop := Digits text ∧ (text.head? = some '0' → text = ['0'])

def Fraction (text : List Char) : Prop := text = [] ∨ ∃ digits, text = '.' :: digits ∧ Digits digits

def Exponent (text : List Char) : Prop :=
  text = [] ∨ ∃ e sign digits, text = e :: (sign ++ digits) ∧ (e = 'e' ∨ e = 'E') ∧
    (sign = [] ∨ sign = ['+'] ∨ sign = ['-']) ∧ Digits digits

def Number (token : List Char) : Prop :=
  ∃ sign whole fraction exponent, token = sign ++ (whole ++ (fraction ++ exponent)) ∧ (sign = [] ∨ sign = ['-']) ∧
    Whole whole ∧ Fraction fraction ∧ Exponent exponent

mutual

inductive Compact : List Char → Value → Prop
  | null : Compact ['n','u','l','l'] .null
  | true : Compact ['t','r','u','e'] (.bool true)
  | false : Compact ['f','a','l','s','e'] (.bool false)
  | number {token} (number : Number token) : Compact token (.number token)
  | string {raw text} (chars : Chars raw text) : Compact ('"' :: (raw ++ ['"'])) (.string text)
  | emptyArray {spaces} (blank : Spaces spaces) : Compact ('[' :: (spaces ++ [']'])) (.array [])
  | array {text items} (listed : Items text items) : Compact ('[' :: (text ++ [']'])) (.array items)
  | emptyObject {spaces} (blank : Spaces spaces) : Compact ('\x7b' :: (spaces ++ ['\x7d'])) (.object [])
  | object {text members} (listed : Members text members) : Compact ('\x7b' :: (text ++ ['\x7d'])) (.object members)

/-- Values with commas between them. -/
inductive Items : List Char → List Value → Prop
  | last {before text after v} (lead : Spaces before) (value : Compact text v) (tail : Spaces after) :
      Items (before ++ (text ++ after)) [v]
  | more {before text after v rest items} (lead : Spaces before) (value : Compact text v) (tail : Spaces after)
      (others : Items rest items) : Items (before ++ (text ++ (after ++ ',' :: rest))) (v :: items)

/-- Keys and values with commas between them. -/
inductive Members : List Char → List (List Char × Value) → Prop
  | last {before raw key gap space text after v} (lead : Spaces before) (chars : Chars raw key) (gapped : Spaces gap)
      (spaced : Spaces space) (value : Compact text v) (tail : Spaces after) :
      Members (before ++ '"' :: (raw ++ '"' :: (gap ++ ':' :: (space ++ (text ++ after))))) [(key,v)]
  | more {before raw key gap space text after v rest members} (lead : Spaces before) (chars : Chars raw key)
      (gapped : Spaces gap) (spaced : Spaces space) (value : Compact text v) (tail : Spaces after)
      (others : Members rest members) :
      Members (before ++ '"' :: (raw ++ '"' :: (gap ++ ':' :: (space ++ (text ++ (after ++ ',' :: rest))))))
        ((key,v) :: members)

end

def Text (text : List Char) (v : Value) : Prop :=
  ∃ before inner after, text = before ++ (inner ++ after) ∧ Spaces before ∧ Compact inner v ∧ Spaces after

theorem spaces_nil : Spaces [] := fun _ mem => absurd mem List.not_mem_nil

theorem Compact.text {text : List Char} {v : Value} (compact : Compact text v) : Text text v :=
  ⟨[],text,[],by simp,spaces_nil,compact,spaces_nil⟩

theorem Chars.append {raw text : List Char} (first : Chars raw text) {raw' text' : List Char} (second : Chars raw' text') :
    Chars (raw ++ raw') (text ++ text') := by
  induction first with
  | nil => exact second
  | plain isPlain _ ih => exact .plain isPlain ih
  | short known _ ih => exact .short known ih
  | unit hex single _ ih =>
    simp only [cons_append,append_assoc]
    exact .unit hex single ih
  | pair high isHigh low isLow _ ih =>
    simp only [cons_append,append_assoc]
    exact .pair high isHigh low isLow ih

theorem items_commas {texts : List (List Char)} {values : List Value} (spelled : List.Forall₂ Compact texts values)
    (some_ : texts ≠ []) : Items (List.intercalate [','] texts) values := by
  induction spelled with
  | nil => exact absurd rfl some_
  | @cons text v rest vs first others ih =>
    cases others with
    | nil => simpa [intercalate] using Items.last spaces_nil first spaces_nil
    | @cons second w rest' ws next others =>
      rw [intercalate_cons_cons]
      have more := Items.more spaces_nil first spaces_nil (ih (by simp))
      simpa using more

def Member (text : List Char) (member : List Char × Value) : Prop :=
  ∃ raw inner, text = '"' :: (raw ++ '"' :: ':' :: inner) ∧ Chars raw member.1 ∧ Compact inner member.2

theorem members_commas {texts : List (List Char)} {members : List (List Char × Value)}
    (spelled : List.Forall₂ Member texts members) (some_ : texts ≠ []) :
    Members (List.intercalate [','] texts) members := by
  induction spelled with
  | nil => exact absurd rfl some_
  | @cons text member rest others first later ih =>
    obtain ⟨_,v⟩ := member
    obtain ⟨_,_,rfl,chars,value⟩ := first
    cases later with
    | nil => simpa [intercalate] using Members.last spaces_nil chars spaces_nil spaces_nil value spaces_nil
    | @cons second other rest' others' next later =>
      rw [intercalate_cons_cons]
      have more := Members.more spaces_nil chars spaces_nil spaces_nil value spaces_nil (ih (by simp))
      simpa using more

theorem head_toDigits (n : Nat) (zero : (Nat.toDigits 10 n).head? = some '0') : Nat.toDigits 10 n = ['0'] := by
  induction n using Nat.strongRecOn with
  | ind n ih =>
    by_cases small : n < 10
    · rw [toDigits_of_lt_base small] at zero ⊢
      exact congrArg (fun c => [c]) (Option.some.inj zero)
    · rw [toDigits_of_base_le (by omega) (by omega),
        head?_append_of_ne_nil _ toDigits_ne_nil] at zero
      have tens := ih (n / 10) (by omega) zero
      have value : n / 10 = 0 := by
        rw [← @ofDigitChars_ten_toDigits (n / 10),tens]
        rfl
      omega

theorem whole_toDigits (n : Nat) : Whole (Nat.toDigits 10 n) :=
  ⟨⟨toDigits_ne_nil,fun _ mem => isDigit_of_mem_toDigits (by omega) (by omega) mem⟩,head_toDigits n⟩

theorem number_toDigits (n : Nat) : Number (Nat.toDigits 10 n) :=
  ⟨[],toDigits 10 n,[],[],by simp,.inl rfl,whole_toDigits n,.inl rfl,.inl rfl⟩

theorem number_minus (n : Nat) : Number ('-' :: Nat.toDigits 10 n) :=
  ⟨['-'],toDigits 10 n,[],[],by simp,.inr rfl,whole_toDigits n,.inl rfl,.inl rfl⟩

end Ferrin.JsonText
