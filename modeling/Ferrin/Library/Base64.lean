import Mathlib.Algebra.Order.Ring.Nat
import Mathlib.Data.List.TakeDrop

/-!
Base64 with the standard alphabet. Every three bytes are four digits; fewer at
the end have a digit more than they are bytes, with or without padding.
-/
namespace Ferrin.Base64
open List
open UInt8 (ofNat)

def digit (n : Nat) : Char :=
  Char.ofNat (if n < 26 then 65 + n else if n < 52 then 71 + n else if n < 62 then n - 4 else if n = 62 then 43 else 47)

/-- The six bits of a digit. -/
def value (c : Char) : Nat :=
  let n := c.toNat
  if 97 ≤ n then n - 71 else if 65 ≤ n then n - 65 else if 48 ≤ n then n + 4 else if n = 43 then 62 else 63

def encode (padded : Bool) : List UInt8 → List Char
  | a :: b :: c :: rest =>
    digit (a.toNat / 4) :: digit (a.toNat % 4 * 16 + b.toNat / 16) :: digit (b.toNat % 16 * 4 + c.toNat / 64) ::
      digit (c.toNat % 64) :: encode padded rest
  | [a,b] =>
    [digit (a.toNat / 4),digit (a.toNat % 4 * 16 + b.toNat / 16),digit (b.toNat % 16 * 4)] ++
      if padded then ['='] else []
  | [a] => [digit (a.toNat / 4),digit (a.toNat % 4 * 16)] ++ if padded then ['=','='] else []
  | [] => []

/-- The bytes whose digits these are. -/
def decoded : List Char → List UInt8
  | a :: b :: c :: d :: rest =>
    ofNat (value a * 4 + value b / 16) ::
      if c = '=' then []
      else ofNat (value b % 16 * 16 + value c / 4) ::
        if d = '=' then [] else ofNat (value c % 4 * 64 + value d) :: decoded rest
  | [a,b,c] => [ofNat (value a * 4 + value b / 16),ofNat (value b % 16 * 16 + value c / 4)]
  | [a,b] => [ofNat (value a * 4 + value b / 16)]
  | _ => []

/-- What a text encodes, if it is written just so. -/
def decode (padded : Bool) (text : List Char) : Option (List UInt8) :=
  if encode padded (decoded text) = text then some (decoded text) else none

/-! ### Digits -/

theorem value_digit {n : Nat} (bound : n < 64) : value (digit n) = n :=
  (by decide : ∀ n : Fin 64, value (digit n) = n) ⟨n,bound⟩

theorem digit_alphabet {n : Nat} (bound : n < 64) : (digit n).isAlphanum = true ∨ digit n = '+' ∨ digit n = '/' :=
  (by decide : ∀ n : Fin 64, (digit n).isAlphanum = true ∨ digit n = '+' ∨ digit n = '/') ⟨n,bound⟩

theorem digit_ne_pad {n : Nat} (bound : n < 64) : digit n ≠ '=' :=
  (by decide : ∀ n : Fin 64, digit n ≠ '=') ⟨n,bound⟩

theorem byte_of_bits (b : UInt8) {n : Nat} (same : n = b.toNat) : ofNat n = b := by
  rw [same,UInt8.ofNat_toNat]

theorem decoded_encode (padded : Bool) : ∀ bytes : List UInt8, decoded (encode padded bytes) = bytes
  | a :: b :: c :: rest => by
    have := a.toNat_lt
    have := b.toNat_lt
    have := c.toNat_lt
    rw [encode,decoded,if_neg (digit_ne_pad (by omega)),if_neg (digit_ne_pad (by omega)),value_digit (by omega),
      value_digit (by omega),value_digit (by omega),value_digit (by omega),decoded_encode padded rest,
      byte_of_bits a (by omega),byte_of_bits b (by omega),byte_of_bits c (by omega)]
  | [a,b] => by
    have := a.toNat_lt
    have := b.toNat_lt
    have both : decoded [digit (a.toNat / 4),digit (a.toNat % 4 * 16 + b.toNat / 16),digit (b.toNat % 16 * 4)] = [a,b] := by
      rw [decoded,value_digit (by omega),value_digit (by omega),value_digit (by omega),byte_of_bits a (by omega),
        byte_of_bits b (by omega)]
    cases padded with
    | false => exact both
    | true =>
      rw [decoded] at both
      simp only [encode,if_true,cons_append,nil_append,decoded,if_neg (digit_ne_pad (show b.toNat % 16 * 4 < 64 by omega))]
      exact both
  | [a] => by
    have := a.toNat_lt
    have one : decoded [digit (a.toNat / 4),digit (a.toNat % 4 * 16)] = [a] := by
      rw [decoded,value_digit (by omega),value_digit (by omega),byte_of_bits a (by omega)]
    cases padded with
    | false => exact one
    | true => exact one
  | [] => rfl

theorem encode_injective (padded : Bool) : Function.Injective (encode padded) :=
  Function.LeftInverse.injective (decoded_encode padded)

theorem decode_encode (padded : Bool) (bytes : List UInt8) : decode padded (encode padded bytes) = some bytes := by
  rw [decode,decoded_encode,if_pos rfl]

theorem decode_eq_some {padded : Bool} {text : List Char} {bytes : List UInt8} (known : decode padded text = some bytes) :
    text = encode padded bytes := by
  unfold decode at known
  split_ifs at known with spelled
  obtain rfl := Option.some.inj known
  exact spelled.symm

theorem mem_encode {padded : Bool} : ∀ {bytes : List UInt8} {c : Char}, c ∈ encode padded bytes →
    (∃ n < 64, c = digit n) ∨ padded = true ∧ c = '='
  | a :: b :: c :: rest,x,mem => by
    have := a.toNat_lt
    have := b.toNat_lt
    have := c.toNat_lt
    simp only [encode,mem_cons] at mem
    rcases mem with rfl | rfl | rfl | rfl | later
    · exact .inl ⟨_,by omega,rfl⟩
    · exact .inl ⟨_,by omega,rfl⟩
    · exact .inl ⟨_,by omega,rfl⟩
    · exact .inl ⟨_,by omega,rfl⟩
    · exact mem_encode later
  | [a,b],x,mem => by
    have := a.toNat_lt
    have := b.toNat_lt
    simp only [encode,cons_append,nil_append,mem_cons] at mem
    rcases mem with rfl | rfl | rfl | pad
    · exact .inl ⟨_,by omega,rfl⟩
    · exact .inl ⟨_,by omega,rfl⟩
    · exact .inl ⟨_,by omega,rfl⟩
    · cases padded with
      | false => exact absurd pad not_mem_nil
      | true => exact .inr ⟨rfl,by simpa using pad⟩
  | [a],x,mem => by
    have := a.toNat_lt
    simp only [encode,cons_append,nil_append,mem_cons] at mem
    rcases mem with rfl | rfl | pad
    · exact .inl ⟨_,by omega,rfl⟩
    · exact .inl ⟨_,by omega,rfl⟩
    · cases padded with
      | false => exact absurd pad not_mem_nil
      | true => exact .inr ⟨rfl,by simpa using pad⟩
  | [],_,mem => absurd mem not_mem_nil

theorem encode_append (padded : Bool) : ∀ {first : List UInt8} (later : List UInt8), 3 ∣ first.length →
    encode padded (first ++ later) = encode padded first ++ encode padded later
  | [],_,_ => rfl
  | [_],_,whole => by simp at whole
  | [_,_],_,whole => by simp at whole
  | a :: b :: c :: rest,later,whole => by
    have others : 3 ∣ rest.length := by simpa using whole
    rw [cons_append,cons_append,cons_append,encode,encode,encode_append padded later others]
    rfl

theorem length_encode (padded : Bool) : ∀ {bytes : List UInt8}, 3 ∣ bytes.length →
    (encode padded bytes).length = bytes.length / 3 * 4
  | [],_ => rfl
  | [_],whole => by simp at whole
  | [_,_],whole => by simp at whole
  | a :: b :: c :: rest,whole => by
    have others : 3 ∣ rest.length := by simpa using whole
    have later := length_encode padded others
    simp only [encode,length_cons,later]
    omega

theorem length_encode_le (padded : Bool) : ∀ bytes : List UInt8, (encode padded bytes).length ≤ (bytes.length + 2) / 3 * 4
  | [] => Nat.zero_le _
  | [_] => by cases padded <;> simp [encode]
  | [_,_] => by cases padded <;> simp [encode]
  | a :: b :: c :: rest => by
    have later := length_encode_le padded rest
    simp only [encode,length_cons]
    omega

theorem take_encode (padded : Bool) (k : Nat) (bytes : List UInt8) :
    (encode padded bytes).take (4 * k) = encode padded (bytes.take (3 * k)) := by
  by_cases long : 3 * k ≤ bytes.length
  · have size : (bytes.take (3 * k)).length = 3 * k := length_take_of_le long
    have whole : 3 ∣ (bytes.take (3 * k)).length := ⟨k,size⟩
    have digits : (encode padded (bytes.take (3 * k))).length = 4 * k := by
      rw [length_encode padded whole,size]
      omega
    conv_lhs => rw [← take_append_drop (3 * k) bytes,encode_append padded _ whole]
    rw [take_append_of_le_length (by omega),take_of_length_le (by omega)]
  · have short : (encode padded bytes).length ≤ 4 * k := by
      have := length_encode_le padded bytes
      omega
    rw [take_of_length_le short,take_of_length_le (by omega)]

end Ferrin.Base64
