import Mathlib.Data.List.Basic

/-!
Texts as their UTF-8 bytes. A byte below 0x80 stands for the character with its
number and for nothing else.
-/
namespace Ferrin.Encoded
open List String

def utf8 (text : List Char) : List UInt8 := text.flatMap String.utf8EncodeChar

@[simp] theorem utf8_nil : utf8 [] = [] := rfl

@[simp] theorem utf8_append (first second : List Char) : utf8 (first ++ second) = utf8 first ++ utf8 second :=
  flatMap_append

@[simp] theorem utf8_cons (c : Char) (rest : List Char) : utf8 (c :: rest) = String.utf8EncodeChar c ++ utf8 rest :=
  flatMap_cons

theorem toUTF8_toList (text : String) : text.toUTF8.data.toList = utf8 text.toList := by
  have same : (ofList text.toList).toByteArray = text.toList.utf8Encode := rfl
  rw [ofList_toList] at same
  change text.toByteArray.data.toList = _
  rw [same,utf8Encode]
  exact data_toByteArray ▸ rfl

theorem length_utf8 (text : String) : (utf8 text.toList).length = text.utf8ByteSize := by
  rw [← toUTF8_toList]
  rfl

theorem utf8_injective : Function.Injective utf8 := by
  intro first second same
  have texts : ofList first = ofList second := by
    refine String.toByteArray_inj.mp (ByteArray.ext (Array.toList_inj.mp ?_))
    have one := toUTF8_toList (ofList first)
    have other := toUTF8_toList (ofList second)
    rw [toList_ofList] at one other
    exact one.trans (same.trans other.symm)
  rw [← toList_ofList (l := first),texts,toList_ofList]

theorem alphanum_ranges {c : Char} (letter : c.isAlphanum = true) :
    (48 ≤ c.toNat ∧ c.toNat ≤ 57) ∨ (65 ≤ c.toNat ∧ c.toNat ≤ 90) ∨ 97 ≤ c.toNat ∧ c.toNat ≤ 122 := by
  change ((decide (65 ≤ c.val ∧ c.val ≤ 90) || 97 ≤ c.val && c.val ≤ 122) || 48 ≤ c.val && c.val ≤ 57) = true at letter
  simp only [Bool.or_eq_true,Bool.and_eq_true,decide_eq_true_eq,UInt32.le_iff_toNat_le] at letter
  rcases letter with (upper | lower) | digit
  · exact .inr (.inl upper)
  · exact .inr (.inr lower)
  · exact .inl digit

theorem ascii_byte {c : Char} {b : UInt8} (mem : b ∈ String.utf8EncodeChar c) (ascii : b.toNat < 0x80) :
    c.toNat = b.toNat ∧ String.utf8EncodeChar c = [b] := by
  have number : c.val.toNat = c.toNat := rfl
  unfold utf8EncodeChar at mem ⊢
  simp only [number] at mem ⊢
  split at mem
  · rename_i small
    rw [mem_singleton] at mem
    subst mem
    rw [if_pos small]
    refine ⟨?_,rfl⟩
    rw [UInt8.toNat_ofNat']
    omega
  · split at mem
    · simp only [mem_cons,not_mem_nil,or_false] at mem
      rcases mem with rfl | rfl <;> rw [UInt8.toNat_ofNat'] at ascii <;> omega
    · split at mem
      · simp only [mem_cons,not_mem_nil,or_false] at mem
        rcases mem with rfl | rfl | rfl <;> rw [UInt8.toNat_ofNat'] at ascii <;> omega
      · simp only [mem_cons,not_mem_nil,or_false] at mem
        rcases mem with rfl | rfl | rfl | rfl <;> rw [UInt8.toNat_ofNat'] at ascii <;> omega

theorem mem_utf8 {text : List Char} {b : UInt8} (mem : b ∈ utf8 text) (ascii : b.toNat < 0x80) :
    ∃ c ∈ text, c.toNat = b.toNat := by
  obtain ⟨c,inside,here⟩ := List.mem_flatMap.mp mem
  exact ⟨c,inside,(ascii_byte here ascii).1⟩

end Ferrin.Encoded
