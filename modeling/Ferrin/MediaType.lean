import Ferrin.LanguageModel
import Mathlib.Data.List.DropRight

/-!
Media types, and their detection from the first bytes of a file.
-/
namespace Ferrin

/-- `split_once('/')`. -/
def MediaType.split_once (media_type : MediaType) : Option (List Char × List Char) :=
  match media_type.toList.span (· ≠ '/') with
  | (top,_ :: sub) => some (top,sub)
  | (_,[]) => none

def MediaType.is_full (media_type : MediaType) : Bool :=
  match MediaType.split_once media_type with
  | some (top,sub) => top ≠ [] && sub ≠ [] && sub ≠ ['*']
  | none => false

def isBlank (c : Char) : Bool :=
  let n := c.toNat
  (9 ≤ n ∧ n ≤ 13) ∨ n ∈ [0x20,0x85,0xA0,0x1680,0x2028,0x2029,0x202F,0x205F,0x3000] ∨ (0x2000 ≤ n ∧ n ≤ 0x200A)

/-- The bytes at the start of a file. A byte that is not given may be any. -/
structure Signature where
  media_type : MediaType
  bytes : List (Option UInt8)

def signature (media_type : MediaType) (bytes : List UInt8) : Signature := ⟨media_type,bytes.map some⟩

def IMAGE : List Signature :=
  [signature "image/gif" [0x47,0x49,0x46,0x38,0x37,0x61],
    signature "image/gif" [0x47,0x49,0x46,0x38,0x39,0x61],
    signature "image/png" [0x89,0x50,0x4e,0x47],
    signature "image/jpeg" [0xff,0xd8],
    ⟨"image/webp",[0x52,0x49,0x46,0x46].map some ++ [none,none,none,none] ++ [0x57,0x45,0x42,0x50].map some⟩,
    ⟨"image/bmp",[0x42,0x4d].map some ++ [none,none,none,none] ++ [0x00,0x00,0x00,0x00].map some⟩,
    signature "image/tiff" [0x49,0x49,0x2a,0x00],
    signature "image/tiff" [0x4d,0x4d,0x00,0x2a],
    signature "image/avif" [0x00,0x00,0x00,0x20,0x66,0x74,0x79,0x70,0x61,0x76,0x69,0x66],
    signature "image/heic" [0x00,0x00,0x00,0x20,0x66,0x74,0x79,0x70,0x68,0x65,0x69,0x63]]

def DOCUMENT : List Signature := [signature "application/pdf" [0x25,0x50,0x44,0x46]]

def AUDIO_WITHOUT_MP4 : List Signature :=
  [signature "audio/mpeg" [0xff,0xfb],
    signature "audio/mpeg" [0xff,0xfa],
    signature "audio/mpeg" [0xff,0xf3],
    signature "audio/mpeg" [0xff,0xf2],
    signature "audio/mpeg" [0xff,0xe3],
    signature "audio/mpeg" [0xff,0xe2],
    ⟨"audio/wav",[0x52,0x49,0x46,0x46].map some ++ [none,none,none,none] ++ [0x57,0x41,0x56,0x45].map some⟩,
    signature "audio/ogg" [0x4f,0x67,0x67,0x53],
    signature "audio/flac" [0x66,0x4c,0x61,0x43],
    signature "audio/aac" [0x40,0x15,0x00,0x00],
    signature "audio/webm" [0x1a,0x45,0xdf,0xa3]]

def mp4Bytes : List (Option UInt8) := [0x00,0x00,0x00].map some ++ [none] ++ [0x66,0x74,0x79,0x70].map some

def AUDIO_MP4 : List Signature := [⟨"audio/mp4",mp4Bytes⟩]

def VIDEO : List Signature :=
  [⟨"video/mp4",mp4Bytes⟩,
    signature "video/webm" [0x1a,0x45,0xdf,0xa3],
    signature "video/quicktime" [0x00,0x00,0x00,0x14,0x66,0x74,0x79,0x70,0x71,0x74],
    signature "video/x-msvideo" [0x52,0x49,0x46,0x46]]

def DEFAULT_SNIFF_BYTES : Nat := 18
def MAX_SIGNATURE_BYTES : Nat := 12
def MAX_ID3_TAG_BYTES : Nat := 128 * 1024
def ID3_SCAN_BYTES : Nat := MAX_ID3_TAG_BYTES + MAX_SIGNATURE_BYTES

def sizeBits (byte : UInt8) : Nat := byte.toNat % 128

def strip_id3 (bytes : List UInt8) : List UInt8 :=
  match bytes with
  | 0x49 :: 0x44 :: 0x33 :: _ :: _ :: _ :: a :: b :: c :: d :: _ :: _ =>
    bytes.drop (sizeBits a * 2 ^ 21 + sizeBits b * 2 ^ 14 + sizeBits c * 2 ^ 7 + sizeBits d + 10)
  | bytes => bytes

def Signature.matches (s : Signature) (head : List UInt8) : Bool :=
  s.bytes.length ≤ head.length && (s.bytes.zip head).all fun pair => pair.1.all (· = pair.2)

def detect_by (bytes : List UInt8) (tables : List (List Signature)) : Option MediaType :=
  let head := if [0x49,0x44,0x33].isPrefixOf bytes then strip_id3 (bytes.take ID3_SCAN_BYTES)
    else bytes.take DEFAULT_SNIFF_BYTES
  (tables.flatten.find? (·.matches head)).map (·.media_type)

/-- The type of the bytes, but for `audio/mp4`. -/
def detect_media_type (bytes : List UInt8) : Option MediaType :=
  detect_by bytes [IMAGE,DOCUMENT,AUDIO_WITHOUT_MP4,VIDEO]

def detect_media_type_for (bytes : List UInt8) (top_level : String) : Option MediaType :=
  match top_level with
  | "image" => detect_by bytes [IMAGE]
  | "audio" => detect_by bytes [AUDIO_WITHOUT_MP4,AUDIO_MP4]
  | "video" => detect_by bytes [VIDEO]
  | "application" => detect_by bytes [DOCUMENT]
  | _ => none

end Ferrin
