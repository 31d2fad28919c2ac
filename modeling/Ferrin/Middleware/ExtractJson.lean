import Ferrin.LanguageModel
import Ferrin.Library.Assoc
import Ferrin.Library.Trim

/-!
The stripping of markdown code fences from the text parts of a response,
complete and streamed. Texts are lists of characters, with places in
characters.
-/
namespace Ferrin.Middleware
open Ferrin.Trim (trim)

abbrev JsonTransformFn := List Char → List Char

structure ExtractJson where
  transform : Option JsonTransformFn

def extract_json : ExtractJson := ⟨none⟩

def SUFFIX_BUFFER_CHARS : Nat := 12

def fence : List Char := ['`','`','`']

def is_json_fence_whitespace (ch : Char) : Bool :=
  (0x09 ≤ ch.toNat && ch.toNat ≤ 0x0d) || ch = ' ' || ch.toNat = 0xa0 || ch.toNat = 0x1680 ||
    (0x2000 ≤ ch.toNat && ch.toNat ≤ 0x200a) || ch.toNat = 0x2028 || ch.toNat = 0x2029 || ch.toNat = 0x202f ||
    ch.toNat = 0x205f || ch.toNat = 0x3000 || ch.toNat = 0xfeff

/-- What follows `json`, or all of the text. -/
def strip_label (text : List Char) : List Char := (text.dropPrefix? ['j','s','o','n']).getD text

def strip_fence_prefix (text : List Char) : List Char :=
  match text.dropPrefix? fence with
  | some rest => (strip_label rest).dropWhile is_json_fence_whitespace
  | none => text

def strip_fence_suffix (text : List Char) : List Char :=
  match (text.rdropWhile is_json_fence_whitespace).dropSuffix? fence with
  | some rest => (rest.dropSuffix? ['\n']).getD rest
  | none => text

def strip_json_fences (text : List Char) : List Char :=
  trim is_json_fence_whitespace (strip_fence_suffix ( strip_fence_prefix text))

def strip_markdown_code_fence_suffix (text : List Char) : List Char :=
  (strip_fence_suffix text).rdropWhile is_json_fence_whitespace

/-- The last place of a character. -/
def rfind (ch : Char) : List Char → Option Nat
  | [] => none
  | c :: rest =>
    match rfind ch rest with
    | some i => some (i + 1)
    | none => if c = ch then some 0 else none

def fence_prefix_len (text : List Char) : Option Nat := do
  let rest ← text.dropPrefix? fence
  let label := strip_label rest
  let consumed := text.length - label.length
  let last_newline ← rfind '\n' (label.takeWhile is_json_fence_whitespace)
  some (consumed + last_newline + 1)

namespace ExtractJson

def run_transform (config : ExtractJson) (text : List Char) : List Char :=
  match config.transform with
  | some transform => transform text
  | none => strip_json_fences text

def apply (config : ExtractJson) (content : List Content) : List Content :=
  content.map fun
    | .Text text metadata => .Text (String.ofList (config.run_transform text.toList)) metadata
    | other => other

inductive Phase where
  | Prefix
  | Streaming
  | Buffering
  deriving DecidableEq

structure Block where
  start : StreamPart
  phase : Phase
  buffer : List Char
  prefix_stripped : Bool

namespace Block

/-- The decision about the opening fence, once there is enough of the text. -/
def leave_prefix (b : Block) : Block × List StreamPart :=
  if b.buffer ≠ [] ∧ b.buffer.head? ≠ some '`' then ({ b with phase := .Streaming },[b.start])
  else if fence <+: b.buffer then
    if '\n' ∈ b.buffer then
      match fence_prefix_len b.buffer with
      | some len => ({ b with phase := .Streaming,buffer := b.buffer.drop len,prefix_stripped := true },[b.start])
      | none => ({ b with phase := .Streaming },[b.start])
    else (b,[])
  else if 3 ≤ b.buffer.length then ({ b with phase := .Streaming },[b.start])
  else (b,[])

/-- All but the last characters is sent on. -/
def hold_back (id : PartId) (b : Block) : Block × List StreamPart :=
  let count := b.buffer.length
  if count > SUFFIX_BUFFER_CHARS then
    let split := count - SUFFIX_BUFFER_CHARS
    ({ b with buffer := b.buffer.drop split },[.TextDelta id (String.ofList (b.buffer.take split)) none])
  else (b,[])

def process_delta (id : PartId) (delta : List Char) (b : Block) : Block × List StreamPart :=
  let b := { b with buffer := b.buffer ++ delta }
  if b.phase = .Buffering then (b,[])
  else
    let (b,started) := if b.phase = .Prefix then b.leave_prefix else (b,[])
    if b.phase = .Streaming then
      let (b,sent) := b.hold_back id
      (b,started ++ sent)
    else (b,started)

/-- What is left when the text ends. -/
def remaining (transform : Option JsonTransformFn) (b : Block) : List Char :=
  match b.phase with
  | .Buffering =>
    match transform with
    | some transform => transform b.buffer
    | none => strip_json_fences b.buffer
  | .Prefix => strip_json_fences b.buffer
  | .Streaming => strip_markdown_code_fence_suffix b.buffer

def finish (transform : Option JsonTransformFn) (id : PartId) (b : Block) : List StreamPart :=
  (if b.phase = .Streaming then [] else [b.start]) ++
    if b.remaining transform = [] then [] else [.TextDelta id (String.ofList (b.remaining transform)) none]

end Block

structure StreamState where
  transform : Option JsonTransformFn
  blocks : List (PartId × Block)

def StreamState.process (s : StreamState) (part : StreamPart) : StreamState × List StreamPart :=
  match part with
  | .TextStart id _ =>
    let phase := if s.transform.isSome then .Buffering else .Prefix
    ({ s with blocks := Assoc.put s.blocks id ⟨part,phase,[],false⟩ },[])
  | .TextDelta id delta _ =>
    match s.blocks.lookup id with
    | none => (s,[part])
    | some block =>
      let (block,out) := block.process_delta id delta.toList
      ({ s with blocks := Assoc.put s.blocks id block },out)
  | .TextEnd id _ =>
    match s.blocks.lookup id with
    | none => (s,[part])
    | some block => ({ s with blocks := Assoc.remove s.blocks id },block.finish s.transform id ++ [part])
  | other => (s,[other])

def StreamState.process_all : StreamState → List StreamPart → StreamState × List StreamPart
  | s,[] => (s,[])
  | s,part :: rest =>
    let (next,out) := s.process part
    let (last,later) := next.process_all rest
    (last,out ++ later)

/-- `ExtractJson::apply_stream`. -/
def apply_stream (config : ExtractJson) (parts : List StreamPart) : List StreamPart :=
  (StreamState.process_all ⟨config.transform,[]⟩ parts).2

end ExtractJson

end Ferrin.Middleware
