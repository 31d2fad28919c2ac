import Mathlib.Data.Nat.Digits.Lemmas
import Mathlib.Tactic.FieldSimp

/-!
Decimals as texts of digits, the ones before the point and the ones after it. The
canonical decimal of a number is unique.
-/
namespace Ferrin.DecimalText
open List Nat

def Digits (text : List Char) : Prop := ∀ c ∈ text, c.isDigit = true

def digitValue (c : Char) : Nat := c.toNat - '0'.toNat

def number (text : List Char) : Nat := Nat.ofDigits 10 (text.reverse.map digitValue)

def value (integer fraction : List Char) : ℚ := number (integer ++ fraction) / 10 ^ fraction.length

/-- No superfluous zeros, neither before the digits nor behind them. -/
structure Canonical (integer fraction : List Char) : Prop where
  nonempty : integer ≠ []
  integer_digits : Digits integer
  fraction_digits : Digits fraction
  leading : integer.head? = some '0' → integer = ['0']
  trailing : fraction.getLast? ≠ some '0'

section
variable {c d : Char} {text first second integer integer' fraction fraction' : List Char}

theorem digit_bounds (digit : c.isDigit = true) : 48 ≤ c.toNat ∧ c.toNat ≤ 57 := by
  rw [Char.isDigit,Bool.and_eq_true,decide_eq_true_iff,decide_eq_true_iff] at digit
  exact ⟨UInt32.le_iff_toNat_le.mp digit.1,UInt32.le_iff_toNat_le.mp digit.2⟩

theorem digitValue_lt (digit : c.isDigit = true) : digitValue c < 10 := by
  have := digit_bounds digit
  have zero : '0'.toNat = 48 := rfl
  rw [digitValue,zero]
  omega

theorem digitValue_inj (digit : c.isDigit = true) (digit' : d.isDigit = true) (same : digitValue c = digitValue d) : c = d := by
  have := digit_bounds digit
  have := digit_bounds digit'
  have zero : '0'.toNat = 48 := rfl
  rw [digitValue,digitValue,zero] at same
  exact Char.toNat_inj.mp (by omega)

theorem digitValue_eq_zero (digit : c.isDigit = true) (zero : digitValue c = 0) : c = '0' :=
  digitValue_inj digit rfl zero

theorem Digits.append (digits : Digits first) (digits' : Digits second) : Digits (first ++ second) :=
  fun c mem => (List.mem_append.mp mem).elim (digits c) (digits' c)

theorem Digits.values (digits : Digits text) : ∀ n ∈ text.reverse.map digitValue, n < 10 := by
  intro n mem
  obtain ⟨c,inside,rfl⟩ := List.mem_map.mp mem
  exact digitValue_lt (digits c (List.mem_reverse.mp inside))

theorem number_append (first second : List Char) :
    number (first ++ second) = number first * 10 ^ second.length + number second := by
  rw [number,reverse_append,map_append,ofDigits_append,length_map,length_reverse,number,number]
  ring

@[simp] theorem number_zeros (n : Nat) : number (List.replicate n '0') = 0 := by
  have zero : digitValue '0' = 0 := rfl
  simp [number,zero,ofDigits_replicate_zero]

theorem number_lt (digits : Digits text) : number text < 10 ^ text.length := by
  simpa [number] using ofDigits_lt_base_pow_length (by norm_num) digits.values

theorem map_digitValue_inj (digits : Digits first) (digits' : Digits second)
    (same : first.map digitValue = second.map digitValue) : first = second := by
  induction first generalizing second with
  | nil => exact (List.map_eq_nil_iff.mp same.symm).symm
  | cons c _ ih =>
    cases second with
    | nil => cases same
    | cons d =>
      obtain ⟨head,tail⟩ := List.cons.inj same
      rw [digitValue_inj (digits c mem_cons_self) (digits' d mem_cons_self) head,
        ih (fun c mem => digits c (mem_cons_of_mem _ mem)) (fun d mem => digits' d (mem_cons_of_mem _ mem)) tail]

theorem reverse_inj (digits : Digits first) (digits' : Digits second)
    (same : first.reverse.map digitValue = second.reverse.map digitValue) : first = second := by
  rw [map_reverse,map_reverse] at same
  exact map_digitValue_inj digits digits' (reverse_injective same)

theorem number_inj (digits : Digits first) (digits' : Digits second) (length : first.length = second.length)
    (same : number first = number second) : first = second :=
  reverse_inj digits digits' (ofDigits_inj_of_len_eq (by norm_num) (by simpa using length) digits.values digits'.values same)

theorem integer_digits (digits : Digits integer) (nonempty : integer ≠ []) (leading : integer.head? ≠ some '0') :
    Nat.digits 10 (number integer) = integer.reverse.map digitValue := by
  refine digits_ofDigits 10 (by norm_num) _ digits.values fun present => ?_
  obtain ⟨c,_,rfl⟩ := exists_cons_of_ne_nil nonempty
  simp only [reverse_cons,map_append,map_cons,map_nil,getLast_concat]
  intro zero
  exact leading (congrArg some (digitValue_eq_zero (digits c mem_cons_self) zero))

theorem integer_unique (digits : Digits integer) (digits' : Digits integer') (nonempty : integer ≠ []) (nonempty' : integer' ≠ [])
    (leading : integer.head? = some '0' → integer = ['0']) (leading' : integer'.head? = some '0' → integer' = ['0'])
    (same : number integer = number integer') : integer = integer' := by
  have zero : number ['0'] = 0 := rfl
  have positive : ∀ {text : List Char}, Digits text → text ≠ [] → text.head? ≠ some '0' → number text ≠ 0 := by
    intro text digits nonempty leading none_
    have spelled := integer_digits digits nonempty leading
    rw [none_,digits_zero] at spelled
    exact nonempty (by simpa using spelled.symm)
  by_cases first : integer.head? = some '0'
  · obtain rfl := leading first
    by_contra differs
    refine positive digits' nonempty' (fun second => differs (leading' second).symm) ?_
    rw [← same,zero]
  · by_cases second : integer'.head? = some '0'
    · obtain rfl := leading' second
      exact absurd (same.trans zero) (positive digits nonempty first)
    · refine reverse_inj digits digits' ?_
      rw [← integer_digits digits nonempty first,same,integer_digits digits' nonempty' second]

theorem number_mod (digits : Digits fraction) (nonempty : fraction ≠ []) (trailing : fraction.getLast? ≠ some '0')
    (integer : List Char) : number (integer ++ fraction) % 10 ≠ 0 := by
  obtain ⟨_,c,rfl⟩ := (eq_nil_or_concat' fraction).resolve_left nonempty
  have digit : c.isDigit = true := digits c (by simp)
  have one : number [c] = digitValue c := by simp [number]
  have small := digitValue_lt digit
  rw [← append_assoc,number_append,one,length_singleton,pow_one]
  intro zero
  exact trailing (by simp [digitValue_eq_zero digit (by omega)])

theorem value_zeros (integer fraction : List Char) (n : Nat) :
    value integer (fraction ++ List.replicate n '0') = value integer fraction := by
  rw [value,value,← append_assoc,number_append,number_zeros,length_replicate,length_append,
    length_replicate,pow_add,add_zero,cast_mul,cast_pow,cast_ofNat]
  exact mul_div_mul_right _ _ (by positivity)

theorem Canonical.length_le (c : Canonical integer fraction) (same : value integer fraction = value integer' fraction') :
    fraction.length ≤ fraction'.length := by
  by_contra! shorter
  obtain ⟨more,length⟩ := Nat.exists_eq_add_of_lt shorter
  rw [value,value,div_eq_div_iff (by positivity) (by positivity),length] at same
  have scaled : (number (integer ++ fraction) : ℚ) * 10 ^ fraction'.length =
      10 ^ (more + 1) * number (integer' ++ fraction') * 10 ^ fraction'.length := by
    rw [same]
    ring
  have numbers : number (integer ++ fraction) = 10 ^ (more + 1) * number (integer' ++ fraction') := by
    exact_mod_cast mul_right_cancel₀ (by positivity) scaled
  refine number_mod c.fraction_digits (by rintro rfl; cases length) c.trailing integer ?_
  rw [numbers,pow_succ,mul_comm (10 ^ more) 10,mul_assoc,mul_mod_right]

theorem Canonical.unique (c : Canonical integer fraction) (c' : Canonical integer' fraction')
    (same : value integer fraction = value integer' fraction') : integer = integer' ∧ fraction = fraction' := by
  have length := le_antisymm (c.length_le same) (c'.length_le same.symm)
  rw [value,value,← length,div_left_inj' (by positivity),Nat.cast_inj] at same
  have parts := same
  rw [number_append,number_append,← length] at parts
  have small := number_lt c.fraction_digits
  have small' := length ▸ number_lt c'.fraction_digits
  have integers : number integer = number integer' := by
    have quotients := congrArg (· / 10 ^ fraction.length) parts
    simp only [mul_comm _ (10 ^ fraction.length),mul_add_div (Nat.pow_pos (by norm_num : 0 < 10))] at quotients
    rwa [div_eq_of_lt small,div_eq_of_lt small',add_zero,add_zero] at quotients
  have integers := integer_unique c.integer_digits c'.integer_digits c.nonempty c'.nonempty c.leading c'.leading integers
  subst integers
  exact ⟨rfl,number_inj c.fraction_digits c'.fraction_digits length (Nat.add_left_cancel parts)⟩

end

end Ferrin.DecimalText
