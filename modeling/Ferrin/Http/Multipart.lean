import Ferrin.Http.JsonLines
import Ferrin.Library.Encoded
import Ferrin.Library.Quoted
import Ferrin.Library.Splitting

/-!
Multipart bodies: the buffered encoding, the stream and the announced length, and
what a reader of the body takes the parts to be.
-/
namespace Ferrin.Multipart
open List Option
open SecureUrl (TransportError)
open JsonLines (BodyStream)
open Encoded Splitting

def u64.MAX : Nat := 18446744073709551615

def checked_add (a b : Nat) : Option Nat := if a + b ≤ u64.MAX then some (a + b) else none

inductive MultipartPart where
  | Field (name value : String)
  | File (name : String) (filename media_type : Option String) (data : List UInt8)
  | StreamFile (name : String) (filename media_type : Option String) (data : BodyStream) (content_length : Option Nat)

structure MultipartForm where
  parts : List MultipartPart
  boundary : String

def streaming_body_error : TransportError :=
  ⟨.InvalidRequest,"streaming request bodies must be consumed asynchronously"⟩

def length_error : TransportError := ⟨.Body,"upload body does not match its declared length"⟩

def CRLF : List UInt8 := [13,10]

/-- A text without the line breaks. -/
def cleared (value : String) : List Char := value.toList.filter fun ch => ch ≠ '\r' && ch ≠ '\n'

def escape_header_value (value : String) : List Char :=
  (cleared value).flatMap fun ch => if ch = '\\' then ['\\','\\'] else if ch = '"' then ['\\','"'] else [ch]

def MultipartPart.name : MultipartPart → String
  | .Field name _ | .File name _ _ _ | .StreamFile name _ _ _ _ => name

def MultipartPart.file : MultipartPart → Option (Option String × Option String)
  | .Field _ _ => none
  | .File _ filename media_type _ | .StreamFile _ filename media_type _ _ => some (filename,media_type)

def as_bytes (text : String) : List UInt8 := utf8 text.toList

def file_header (filename media_type : Option String) : List UInt8 :=
  as_bytes "; filename=\"" ++ utf8 (escape_header_value (filename.getD "blob")) ++
    as_bytes "\"\r\nContent-Type: " ++ utf8 (cleared (media_type.getD "application/octet-stream"))

def part_header (boundary : String) (part : MultipartPart) : List UInt8 :=
  as_bytes "--" ++ as_bytes boundary ++ as_bytes "\r\nContent-Disposition: form-data; name=\"" ++
    utf8 (escape_header_value part.name) ++ as_bytes "\"" ++
    (part.file.elim [] fun file => file_header file.1 file.2) ++ as_bytes "\r\n\r\n"

namespace MultipartForm

def ending (form : MultipartForm) : List UInt8 := as_bytes "--" ++ as_bytes form.boundary ++ as_bytes "--\r\n"

def part_length : MultipartPart → Option Nat
  | .Field _ value => some value.utf8ByteSize
  | .File _ _ _ data => some data.length
  | .StreamFile _ _ _ _ content_length => content_length

def add_length (boundary : String) (total : Nat) (part : MultipartPart) : Option Nat := do
  let length ← part_length part
  let total ← checked_add total (part_header boundary part).length
  let total ← checked_add total length
  checked_add total 2

def content_length (form : MultipartForm) : Option Nat :=
  form.parts.foldlM (add_length form.boundary) form.ending.length

def encode_part (boundary : String) (out : List UInt8) (part : MultipartPart) : Except TransportError (List UInt8) :=
  match part with
  | .Field _ value => .ok (out ++ part_header boundary part ++ as_bytes value ++ CRLF)
  | .File _ _ _ data => .ok (out ++ part_header boundary part ++ data ++ CRLF)
  | .StreamFile _ _ _ _ _ => .error streaming_body_error

def encode (form : MultipartForm) : Except TransportError (List UInt8) := do
  let out ← form.parts.foldlM (encode_part form.boundary) []
  return out ++ form.ending

end MultipartForm

def single_chunk (chunk : List UInt8) : BodyStream := [.ok chunk]

def checked_stream : BodyStream → (remaining : Option Nat) → BodyStream
  | [],remaining => if remaining.any (· ≠ 0) then [.error length_error] else []
  | .error error :: _,_ => [.error error]
  | .ok chunk :: rest,none => .ok chunk :: checked_stream rest none
  | .ok chunk :: rest,some remaining =>
    if chunk.length > remaining then [.error length_error]
    else .ok chunk :: checked_stream rest (some (remaining - chunk.length))

def part_stream (boundary : String) (part : MultipartPart) : BodyStream :=
  single_chunk (part_header boundary part) ++
    (match part with
      | .Field _ value => single_chunk (as_bytes value)
      | .File _ _ _ data => single_chunk data
      | .StreamFile _ _ _ data content_length => checked_stream data content_length) ++
    single_chunk CRLF

def MultipartForm.into_stream (form : MultipartForm) : BodyStream :=
  checked_stream (form.parts.flatMap (part_stream form.boundary) ++ single_chunk form.ending) none

/-! ### The three forms of the body -/

def MultipartPart.content : MultipartPart → Option (List UInt8)
  | .Field _ value => some (as_bytes value)
  | .File _ _ _ data => some data
  | .StreamFile _ _ _ _ _ => none

def body (boundary : String) (parts : List MultipartPart) : List UInt8 :=
  parts.flatMap fun part => part_header boundary part ++ part.content.getD [] ++ CRLF

section
variable {form : MultipartForm} {out : List UInt8} {boundary : String} {part : MultipartPart}

theorem encode_part_ok {before after : List UInt8} : MultipartForm.encode_part boundary before part = .ok after ↔
    part.content.isSome ∧ after = before ++ (part_header boundary part ++ part.content.getD [] ++ CRLF) := by
  cases part <;> simp [MultipartForm.encode_part,MultipartPart.content,eq_comm]

theorem encode_from (parts : List MultipartPart) : ∀ before after : List UInt8,
    parts.foldlM (MultipartForm.encode_part boundary) before = .ok after ↔
      (∀ part ∈ parts, part.content.isSome) ∧ after = before ++ body boundary parts := by
  induction parts with
  | nil =>
    intro before after
    rw [foldlM_nil,body,flatMap_nil,append_nil]
    constructor
    · intro same
      cases same
      exact ⟨by simp,rfl⟩
    · rintro ⟨_,rfl⟩
      rfl
  | cons part _ ih =>
    intro before after
    rw [foldlM_cons,Result.bind_ok]
    simp only [encode_part_ok,ih]
    constructor
    · rintro ⟨_,⟨here,rfl⟩,later,rfl⟩
      refine ⟨?_,by simp [body]⟩
      intro p mem
      rcases List.mem_cons.mp mem with rfl | other
      · exact here
      · exact later p other
    · rintro ⟨all,rfl⟩
      exact ⟨_,⟨all part (by simp),rfl⟩,fun p mem => all p (by simp [mem]),by simp [body]⟩

theorem encode_ok : form.encode = .ok out ↔
    (∀ part ∈ form.parts, part.content.isSome) ∧ out = body form.boundary form.parts ++ form.ending := by
  rw [MultipartForm.encode,Result.bind_ok]
  constructor
  · rintro ⟨_,encoded,same⟩
    obtain ⟨buffered,rfl⟩ := (encode_from _ _ _).mp encoded
    cases same
    exact ⟨buffered,rfl⟩
  · rintro ⟨buffered,rfl⟩
    exact ⟨_,(encode_from _ _ _).mpr ⟨buffered,rfl⟩,rfl⟩

theorem checked_stream_none (chunks : List (List UInt8)) :
    checked_stream (chunks.map .ok) none = chunks.map .ok := by
  induction chunks with
  | nil => rfl
  | cons _ _ ih => rw [map_cons,checked_stream,ih]

def chunksOf (boundary : String) (parts : List MultipartPart) : List (List UInt8) :=
  parts.flatMap fun part => [part_header boundary part,part.content.getD [],CRLF]

theorem part_stream_eq (buffered : part.content.isSome) :
    part_stream boundary part = [part_header boundary part,part.content.getD [],CRLF].map .ok := by
  cases part with
  | Field => rfl
  | File => rfl
  | StreamFile => cases buffered

theorem parts_stream_eq {parts : List MultipartPart} (buffered : ∀ part ∈ parts, part.content.isSome) :
    parts.flatMap (part_stream boundary) = (chunksOf boundary parts).map .ok := by
  induction parts with
  | nil => rfl
  | cons part _ ih =>
    rw [flatMap_cons,part_stream_eq (buffered part (by simp)),ih fun p mem => buffered p (by simp [mem]),
      ← map_append]
    rfl

theorem into_stream_eq (buffered : ∀ part ∈ form.parts, part.content.isSome) :
    form.into_stream = (chunksOf form.boundary form.parts ++ [form.ending]).map .ok := by
  have whole : (chunksOf form.boundary form.parts).map Except.ok ++ single_chunk form.ending =
      (chunksOf form.boundary form.parts ++ [form.ending]).map .ok := by simp [single_chunk]
  rw [MultipartForm.into_stream,parts_stream_eq buffered,whole,checked_stream_none]

theorem flatten_chunksOf (parts : List MultipartPart) : (chunksOf boundary parts).flatten = body boundary parts := by
  induction parts with
  | nil => rfl
  | cons _ _ ih =>
    rw [chunksOf,flatMap_cons,flatten_append,body,flatMap_cons]
    refine congr (congrArg _ ?_) ih
    simp

theorem checked_add_eq {a b n : Nat} : checked_add a b = some n ↔ a + b = n ∧ n ≤ u64.MAX := by
  rw [checked_add]
  split
  · rw [some.injEq]
    omega
  · simp only [reduceCtorEq,false_iff]
    omega

theorem add_length_eq (buffered : part.content.isSome) {total n : Nat} :
    MultipartForm.add_length boundary total part = some n ↔
      total + (part_header boundary part ++ part.content.getD [] ++ CRLF).length = n ∧ n ≤ u64.MAX := by
  have length : MultipartForm.part_length part = some (part.content.getD []).length := by
    cases part with
    | Field _ value => exact congrArg some (length_utf8 value).symm
    | File => rfl
    | StreamFile => cases buffered
  have two : CRLF.length = 2 := rfl
  rw [MultipartForm.add_length,length,bind_eq_bind,bind_some]
  simp only [bind_eq_some_iff,checked_add_eq,length_append,two]
  constructor
  · rintro ⟨_,⟨rfl,_⟩,_,⟨rfl,_⟩,rfl,small⟩
    omega
  · rintro ⟨rfl,small⟩
    exact ⟨_,⟨rfl,by omega⟩,_,⟨rfl,by omega⟩,by omega,small⟩

theorem length_body_cons (boundary : String) (part : MultipartPart) (rest : List MultipartPart) :
    (body boundary (part :: rest)).length =
      (part_header boundary part ++ part.content.getD [] ++ CRLF).length + (body boundary rest).length := by
  rw [body,flatMap_cons,length_append]
  rfl

theorem length_announced {parts : List MultipartPart} (buffered : ∀ part ∈ parts, part.content.isSome) :
    ∀ total n : Nat, parts.foldlM (MultipartForm.add_length boundary) total = some n →
      n = total + (body boundary parts).length := by
  induction parts with
  | nil =>
    intro total n announced
    cases announced
    rfl
  | cons part _ ih =>
    intro total n announced
    rw [foldlM_cons,bind_eq_bind,bind_eq_some_iff] at announced
    obtain ⟨_,first,later⟩ := announced
    obtain ⟨rfl,_⟩ := (add_length_eq (buffered part (by simp))).mp first
    rw [ih (fun p mem => buffered p (by simp [mem])) _ n later,length_body_cons,Nat.add_assoc]

theorem length_fits {parts : List MultipartPart} (buffered : ∀ part ∈ parts, part.content.isSome) : ∀ total : Nat,
    total + (body boundary parts).length ≤ u64.MAX →
      parts.foldlM (MultipartForm.add_length boundary) total = some (total + (body boundary parts).length) := by
  induction parts with
  | nil => exact fun _ _ => rfl
  | cons part _ ih =>
    intro total fits
    rw [length_body_cons] at fits
    rw [foldlM_cons,bind_eq_bind,bind_eq_some_iff,length_body_cons,← Nat.add_assoc]
    refine ⟨_,(add_length_eq (buffered part (by simp))).mpr ⟨rfl,by omega⟩,?_⟩
    exact ih (fun p mem => buffered p (by simp [mem])) _ (by omega)

end

end Ferrin.Multipart
