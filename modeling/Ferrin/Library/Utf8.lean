import Mathlib.Data.List.TakeDrop
import Mathlib.Tactic.Ring

/-!
Decoding of bytes as UTF-8 with replacement characters. The decoder reads one
byte at a time and gives U+FFFD for every maximal part that no well-formed
sequence continues. A byte below 0x80 stands for itself wherever it occurs, so
decoding distributes over it (`decode_ascii`): text that is split at ASCII bytes
may be decoded piece by piece.
-/
namespace Ferrin.Utf8
open List
open Char (ofNat)

/-- A sequence whose first bytes are read: how many bytes are missing, the range
    of the next one and the scalar value read so far. A byte that continues a
    sequence is never ASCII, and neither is the value of a complete sequence. -/
structure Pending where
  needed : Nat
  lower : Nat
  upper : Nat
  code : Nat
  tail : 0x80 ≤ lower ∧ upper ≤ 0xBF
  large : 0x80 ≤ code * 0x40 ^ needed + (lower - 0x80) * 0x40 ^ (needed - 1)

def replacement : Char := ofNat 0xFFFD

/-- The sequence after a byte in its range. -/
def Pending.next (p : Pending) (b : Nat) (inside : p.lower ≤ b ∧ b ≤ p.upper) : Pending where
  needed := p.needed - 1
  lower := 0x80
  upper := 0xBF
  code := p.code * 0x40 + b % 0x40
  tail := by decide
  large := by
    have large := p.large
    have tail := p.tail
    obtain ⟨_,_⟩ := inside
    have digit : p.lower - 0x80 ≤ b % 0x40 := by omega
    rcases zero : p.needed with _ | n
    · simp only [zero,pow_zero,mul_one,Nat.zero_sub] at large ⊢
      omega
    · simp only [zero,Nat.add_sub_cancel] at large ⊢
      calc 0x80 ≤ p.code * 0x40 ^ (n+1) + (p.lower - 0x80) * 0x40 ^ n := large
        _ ≤ p.code * 0x40 ^ (n+1) + b % 0x40 * 0x40 ^ n :=
          Nat.add_le_add_left (Nat.mul_le_mul_right _ digit) _
        _ = (p.code * 0x40 + b % 0x40) * 0x40 ^ n + (0x80 - 0x80) * 0x40 ^ (n-1) := by ring

def first (b : Nat) : Option Pending × List Char :=
  if b < 0x80 then (none,[ofNat b])
  else if two : 0xC2 ≤ b ∧ b ≤ 0xDF then (some ⟨1,0x80,0xBF,b % 0x20,by decide,by omega⟩,[])
  else if b = 0xE0 then (some ⟨2,0xA0,0xBF,0,by decide,by decide⟩,[])
  else if b = 0xED then (some ⟨2,0x80,0x9F,0xD,by decide,by decide⟩,[])
  else if three : 0xE1 ≤ b ∧ b ≤ 0xEF then (some ⟨2,0x80,0xBF,b % 0x10,by decide,by omega⟩,[])
  else if b = 0xF0 then (some ⟨3,0x90,0xBF,0,by decide,by decide⟩,[])
  else if b = 0xF4 then (some ⟨3,0x80,0x8F,4,by decide,by decide⟩,[])
  else if four : 0xF1 ≤ b ∧ b ≤ 0xF3 then (some ⟨3,0x80,0xBF,b % 0x08,by decide,by omega⟩,[])
  else (none,[replacement])

/-- One byte. A byte that does not continue the sequence ends it with a
    replacement character and is read again as a first byte. -/
def step (state : Option Pending) (b : Nat) : Option Pending × List Char :=
  match state with
  | none => first b
  | some p =>
    if inside : p.lower ≤ b ∧ b ≤ p.upper then
      if p.needed = 1 then (none,[ofNat (p.code * 0x40 + b % 0x40)])
      else (some (p.next b inside),[])
    else ((first b).1,replacement :: (first b).2)

/-- The end of the input inside a sequence. -/
def flush : Option Pending → List Char
  | none => []
  | some _ => [replacement]

def decodeFrom : Option Pending → List UInt8 → List Char
  | state, [] => flush state
  | state, b :: rest => (step state b.toNat).2 ++ decodeFrom (step state b.toNat).1 rest

/-- The text of a byte sequence, with replacement characters. -/
def decode (bytes : List UInt8) : List Char := decodeFrom none bytes

@[simp] theorem decode_nil : decode [] = [] := rfl

theorem toNat_ascii {n : Nat} (ascii : n < 0x80) : (ofNat n).toNat = n := by
  have scalar : n.isValidChar := .inl (by omega)
  rw [ofNat,dif_pos scalar]
  rfl

theorem step_ascii (state : Option Pending) {b : Nat} (ascii : b < 0x80) :
    step state b = (none,flush state ++ [ofNat b]) := by
  cases state with
  | none => simp [step,first,flush,ascii]
  | some p =>
    have outside : ¬ (p.lower ≤ b ∧ b ≤ p.upper) := by
      have := p.tail
      omega
    simp [step,first,flush,ascii,outside]

theorem decodeFrom_ascii (before after : List UInt8) {b : UInt8} (ascii : b.toNat < 0x80) :
    ∀ state, decodeFrom state (before ++ b :: after) =
      decodeFrom state before ++ ofNat b.toNat :: decode after := by
  induction before with
  | nil => intro state; simp [decodeFrom,step_ascii state ascii,decode]
  | cons _ _ ih => intro state; simp [decodeFrom,ih]

theorem decode_ascii (before after : List UInt8) {b : UInt8} (ascii : b.toNat < 0x80) :
    decode (before ++ b :: after) = decode before ++ ofNat b.toNat :: decode after :=
  decodeFrom_ascii before after ascii none

/-- A character that only its own byte encodes: an ASCII control other than NUL. -/
def Control (c : Char) : Prop := c ≠ ofNat 0 ∧ c.toNat < 0x20

theorem Control.ne_replacement {c : Char} (control : Control c) : c ≠ replacement := by
  rintro rfl
  exact absurd control.2 (by decide)

theorem Control.not_mem_flush {c : Char} (control : Control c) (state : Option Pending) : c ∉ flush state := by
  cases state with
  | none => simp [flush]
  | some => simp [flush,control.ne_replacement]

theorem not_control_ofNat {n : Nat} (large : 0x80 ≤ n) : ¬ Control (ofNat n) := by
  rintro ⟨notNul,small⟩
  by_cases scalar : n.isValidChar
  · rw [ofNat,dif_pos scalar] at small
    exact absurd (show n < 0x20 from small) (by omega)
  · exact notNul (by rw [ofNat,dif_neg scalar]; rfl)

theorem first_progress {b : Nat} (idle : (first b).1 = none) : (first b).2 ≠ [] := by
  unfold first at idle ⊢
  split_ifs <;> simp_all

theorem first_control {b : Nat} {c : Char} (control : Control c) (mem : c ∈ (first b).2) :
    b < 0x80 ∧ ofNat b = c := by
  have fresh := control.ne_replacement
  unfold first at mem
  split_ifs at mem with ascii <;> simp_all

theorem step_control {state : Option Pending} {b : Nat} {c : Char} (control : Control c)
    (mem : c ∈ (step state b).2) : b < 0x80 ∧ ofNat b = c := by
  have fresh := control.ne_replacement
  cases state with
  | none => exact first_control control mem
  | some p =>
    unfold step at mem
    simp only at mem
    split_ifs at mem with inside last
    · have large : 0x80 ≤ p.code * 0x40 + b % 0x40 := by
        have large := p.large
        have tail := p.tail
        rw [last] at large
        simp only [pow_one,Nat.sub_self,pow_zero,mul_one] at large
        omega
      rw [List.mem_singleton.mp mem] at control
      exact absurd control (not_control_ofNat large)
    · simp at mem
    · rcases List.mem_cons.mp mem with same | later
      · exact absurd same fresh
      · exact first_control control later

theorem head_pending (bytes : List UInt8) :
    ∀ (p : Pending) (c : Char), (decodeFrom (some p) bytes).head? = some c → ¬ Control c := by
  induction bytes with
  | nil =>
    rintro p c head control
    simp only [decodeFrom,flush,head?_cons,Option.some.injEq] at head
    exact control.ne_replacement head.symm
  | cons b _ ih =>
    rintro p c head control
    by_cases inside : p.lower ≤ b.toNat ∧ b.toNat ≤ p.upper
    · by_cases last : p.needed = 1
      · have mem : c ∈ (step (some p) b.toNat).2 := by
          simp only [decodeFrom,step,inside,last,and_self,↓reduceDIte,↓reduceIte,cons_append,
            head?_cons,Option.some.injEq] at head
          simp only [step,inside,last,and_self,↓reduceDIte,↓reduceIte,mem_singleton,head]
        obtain ⟨_,_⟩ := step_control control mem
        have := p.tail
        omega
      · refine ih (p.next b.toNat inside) c ?_ control
        simpa only [decodeFrom,step,inside,last,and_self,↓reduceDIte,↓reduceIte,nil_append] using head
    · simp only [decodeFrom,step,inside,↓reduceDIte,cons_append,head?_cons,Option.some.injEq] at head
      exact control.ne_replacement head.symm

theorem decodeFrom_pending_ne_nil (bytes : List UInt8) : ∀ p : Pending, decodeFrom (some p) bytes ≠ [] := by
  induction bytes with
  | nil => intro p; simp [decodeFrom,flush]
  | cons _ _ ih =>
    intro p
    simp only [decodeFrom,step]
    split_ifs
    · simp
    · simpa using ih _
    · simp

theorem decode_eq_nil {bytes : List UInt8} : decode bytes = [] ↔ bytes = [] := by
  constructor
  · intro empty
    cases bytes with
    | nil => rfl
    | cons b rest =>
      simp only [decode,decodeFrom,append_eq_nil_iff,step] at empty
      rcases next : (first b.toNat).1 with _ | p
      · exact absurd empty.1 (first_progress next)
      · rw [next] at empty
        exact absurd empty.2 (decodeFrom_pending_ne_nil rest p)
  · rintro rfl
    rfl

end Ferrin.Utf8
