import Ferrin.Library.Base64
import Ferrin.MediaType

/-!
Detection in a base64 text, of which only the start is decoded.
-/
namespace Ferrin
open List Base64 String
open Base64 (encode)
open String (ofList)

/-- The decoders with and without padding. -/
structure Base64Engines where
  STANDARD : String → Option (List UInt8)
  STANDARD_NO_PAD : String → Option (List UInt8)

structure Base64Engines.Lawful (engines : Base64Engines) : Prop where
  standard : ∀ text bytes, engines.STANDARD text = some bytes ↔ text.toList = encode true bytes
  standard_no_pad : ∀ text bytes, engines.STANDARD_NO_PAD text = some bytes ↔ text.toList = encode false bytes

/-- The characters that fit into a number of bytes. -/
def fitting : Nat → List Char → List Char
  | _,[] => []
  | room,c :: rest => if c.utf8Size ≤ room then c :: fitting (room - c.utf8Size) rest else []

def detect_media_type_base64 (engines : Base64Engines) (text : String) (top_level : Option String) : Option MediaType :=
  let max_bytes := if ['S','U','Q','z'].isPrefixOf text.toList then ID3_SCAN_BYTES else DEFAULT_SNIFF_BYTES
  let max_chars := (max_bytes + 2) / 3 * 4
  let start := fitting max_chars text.toList
  let decoded := engines.STANDARD (ofList start) <|>
    engines.STANDARD_NO_PAD (ofList (start.rdropWhile (· = '=')))
  match decoded with
  | none => none
  | some bytes =>
    match top_level with
    | some top_level => detect_media_type_for bytes top_level
    | none => detect_media_type bytes

/-! ### Starts of files -/

section
variable {bytes : List UInt8} {padded : Bool}

def ID3 : List UInt8 := [0x49,0x44,0x33]

def sniffed (bytes : List UInt8) : Nat := if ID3.isPrefixOf bytes then ID3_SCAN_BYTES else DEFAULT_SNIFF_BYTES

theorem isPrefixOf_take {n : Nat} (three : 3 ≤ n) : ID3.isPrefixOf (bytes.take n) = ID3.isPrefixOf bytes := by
  obtain ⟨n,rfl⟩ := Nat.exists_eq_add_of_le' three
  match bytes with
  | [] | [_] | [_,_] => rfl
  | a :: b :: c :: rest => rfl

theorem three_le_sniffed : 3 ≤ sniffed bytes := by
  unfold sniffed
  split_ifs <;> decide

theorem detect_by_take {n : Nat} (enough : sniffed bytes ≤ n) (tables : List (List Signature)) :
    detect_by (bytes.take n) tables = detect_by bytes tables := by
  have three := three_le_sniffed.trans enough
  unfold detect_by
  rw [show [0x49,0x44,0x33] = ID3 from rfl,isPrefixOf_take three]
  unfold sniffed at enough
  split_ifs at enough ⊢ with tag
  · rw [take_take,Nat.min_eq_left enough]
  · rw [take_take,Nat.min_eq_left enough]

theorem detect_for_take {n : Nat} (enough : sniffed bytes ≤ n) (top_level : String) :
    detect_media_type_for (bytes.take n) top_level = detect_media_type_for bytes top_level := by
  unfold detect_media_type_for
  split <;> simp only [detect_by_take enough]

theorem isPrefixOf_encode : ['S','U','Q','z'].isPrefixOf (encode padded bytes) = ID3.isPrefixOf bytes := by
  have start : encode padded ID3 = ['S','U','Q','z'] := by cases padded <;> decide
  rw [Bool.eq_iff_iff, isPrefixOf_iff_prefix, isPrefixOf_iff_prefix,prefix_iff_eq_take,prefix_iff_eq_take]
  have digits : (encode padded bytes).take 4 = encode padded (bytes.take 3) := take_encode padded 1 bytes
  rw [show ['S','U','Q','z'].length = 4 from rfl,show ID3.length = 3 from rfl,digits,← start]
  exact (encode_injective padded).eq_iff

theorem utf8Size_encode {c : Char} (mem : c ∈ encode padded bytes) : c.utf8Size = 1 := by
  rcases mem_encode mem with ⟨n,bound,rfl⟩ | ⟨-,rfl⟩
  · exact (by decide : ∀ n : Fin 64, (digit n).utf8Size = 1) ⟨n,bound⟩
  · rfl

theorem fitting_take {text : List Char} (small : ∀ c ∈ text, c.utf8Size = 1) : ∀ room, fitting room text = text.take room := by
  induction text with
  | nil => exact fun room => by simp [fitting]
  | cons c _ ih =>
    intro room
    have later := ih fun d mem => small d (mem_cons_of_mem c mem)
    rw [fitting,small c mem_cons_self]
    cases room with
    | zero => rfl
    | succ => rw [if_pos (by omega),Nat.add_sub_cancel,later,take_succ_cons]

theorem rdropWhile_encode : (encode false bytes).rdropWhile (· = '=') = encode false bytes := by
  rw [rdropWhile_eq_self_iff]
  intro filled
  rcases mem_encode (getLast_mem filled) with ⟨n,bound,last⟩ | ⟨no,-⟩
  · rw [last]
    simpa using digit_ne_pad bound
  · cases no

theorem Base64Engines.Lawful.decode {engines : Base64Engines} (lawful : engines.Lawful) (padded : Bool) (bytes : List UInt8) :
    (engines.STANDARD (ofList (encode padded bytes)) <|>
      engines.STANDARD_NO_PAD (ofList ((encode padded bytes).rdropWhile (· = '=')))) = some bytes := by
  cases padded with
  | true =>
    have read : engines.STANDARD (ofList (encode true bytes)) = some bytes :=
      (lawful.standard _ _).mpr toList_ofList
    rw [read]
    rfl
  | false =>
    have read : engines.STANDARD_NO_PAD (ofList (encode false bytes)) = some bytes :=
      (lawful.standard_no_pad _ _).mpr toList_ofList
    rw [rdropWhile_encode,read]
    cases other : engines.STANDARD (ofList (encode false bytes)) with
    | none => rfl
    | some =>
      have text := (lawful.standard _ _).mp other
      rw [toList_ofList] at text
      have same := congrArg decoded text
      rw [decoded_encode,decoded_encode] at same
      rw [same]
      rfl

/-- Every file has the type that its base64 text has, with and without padding, for every target. -/
theorem detect_base64 {engines : Base64Engines} (lawful : engines.Lawful) (padded : Bool) (bytes : List UInt8)
    (top_level : Option String) : detect_media_type_base64 engines (ofList (encode padded bytes)) top_level =
      match top_level with
      | some top_level => detect_media_type_for bytes top_level
      | none => detect_media_type bytes := by
  have small : ∀ c ∈ encode padded bytes, c.utf8Size = 1 := fun c member => utf8Size_encode member
  have size : (if ID3.isPrefixOf bytes then ID3_SCAN_BYTES else DEFAULT_SNIFF_BYTES) = sniffed bytes := rfl
  unfold detect_media_type_base64
  simp only [toList_ofList,isPrefixOf_encode,size]
  rw [fitting_take small,Nat.mul_comm,take_encode,lawful.decode padded]
  have enough : sniffed bytes ≤ 3 * ((sniffed bytes + 2) / 3) := by omega
  cases top_level with
  | some top_level => exact detect_for_take enough top_level
  | none => exact detect_by_take enough _

def plainEngines : Base64Engines := ⟨fun text => Base64.decode true text.toList,fun text => Base64.decode false text.toList⟩

theorem plainEngines_lawful : plainEngines.Lawful := by
  have both (padded : Bool) (text : String) (bytes : List UInt8) :
      decode padded text.toList = some bytes ↔ text.toList = encode padded bytes :=
    ⟨decode_eq_some,fun same => same ▸ decode_encode padded bytes⟩
  exact ⟨both true,both false⟩

/-- A tag of two bytes before a frame of audio. -/
theorem detect_base64_tagged : detect_media_type_base64 plainEngines
    (ofList (encode false [0x49,0x44,0x33,4,0,0,0,0,0,2,1,1,0xff,0xfb])) (some "audio") = some "audio/mpeg" :=
  (detect_base64 plainEngines_lawful false _ (some "audio")).trans (by decide)

end

end Ferrin
