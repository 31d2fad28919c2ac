import Ferrin.LanguageModel
import Ferrin.Library.Assoc
import Ferrin.Library.Delimiter
import Mathlib.Data.List.Sort

/-!
The extraction of tagged reasoning from the text parts of a complete response
and of a stream. Texts are lists of characters, with places in characters.
-/
namespace Ferrin.Middleware
open Ferrin.Delimiter (find tail_start)

structure ExtractReasoning where
  opening_tag : List Char
  closing_tag : List Char
  separator : List Char
  start_with_reasoning : Bool

def extract_reasoning (tag_name : List Char) : ExtractReasoning where
  opening_tag := '<' :: tag_name ++ ['>']
  closing_tag := ['<','/'] ++ tag_name ++ ['>']
  separator := ['\n']
  start_with_reasoning := false

/-- The place of `needle` in `text`, or of the end of `text` that may be a tag split across deltas. -/
def potential_start_index (text needle : List Char) : Option Nat :=
  if needle = [] then none else (find needle text).or (tail_start needle text)

/-- A match of the tags: the range of the whole, and what stands between them. -/
structure Match where
  start : Nat
  stop : Nat
  inner : List Char

/-- The matches of the pattern `(?s)OPENING(.*?)CLOSING` in a text that begins at `place`, one after the other. -/
def captures (config : ExtractReasoning) : Nat → Nat → List Char → List Match
  | 0,_,_ => []
  | turns + 1,place,text =>
    match find config.opening_tag text with
    | none => []
    | some i =>
      let inside := text.drop (i + config.opening_tag.length)
      match find config.closing_tag inside with
      | none => []
      | some j =>
        let stop := place + (i + config.opening_tag.length) + (j + config.closing_tag.length)
        ⟨place + i,stop,inside.take j⟩ :: captures config turns stop (inside.drop (j + config.closing_tag.length))

namespace ExtractReasoning

def remove (config : ExtractReasoning) (remaining : List Char) (m : Match) : List Char :=
  let before := remaining.take m.start
  let after := remaining.drop m.stop
  let separator := if before = [] ∨ after = [] then [] else config.separator
  before ++ separator ++ after

def apply_part (config : ExtractReasoning) : Content → List Content
  | .Text text metadata =>
    let subject := if config.start_with_reasoning then config.opening_tag ++ text.toList else text.toList
    let found := captures config (subject.length + 1) 0 subject
    if found.isEmpty then [.Text text metadata]
    else
      let reasoning := config.separator.intercalate (found.map (·.inner))
      -- the last match first, so that the places of the others stay
      let remaining := found.reverse.foldl config.remove subject
      [.Reasoning (String.ofList reasoning) none,.Text (String.ofList remaining) none]
  | part => [part]

/-- `ExtractReasoning::apply`, the content of a complete result. -/
def apply (config : ExtractReasoning) (content : List Content) : List Content := content.flatMap config.apply_part

end ExtractReasoning

structure Extraction where
  is_first_reasoning : Bool
  is_first_text : Bool
  after_switch : Bool
  is_reasoning : Bool
  buffer : List Char
  reasoning_id : Option PartId
  text_id : PartId
  delayed_text_start : Option StreamPart
  text_started : Bool

def Extraction.new (id : PartId) (start_with_reasoning : Bool) : Extraction :=
  ⟨true,true,false,start_with_reasoning,[],none,id,none,false⟩

/-- An extraction with the counter of reasoning ids, and what was emitted on the way. -/
structure Emission where
  extraction : Extraction
  counter : UInt32
  out : List StreamPart

def Emission.andThen (m : Emission) (f : Extraction → UInt32 → Emission) : Emission :=
  let n := f m.extraction m.counter
  ⟨n.extraction,n.counter,m.out ++ n.out⟩

def reasoningName (counter : UInt32) : PartId := s!"reasoning-{counter.toNat}"

namespace Extraction

def start_text (e : Extraction) (counter : UInt32) : Emission :=
  match e.delayed_text_start with
  | some start => ⟨{ e with delayed_text_start := none,text_started := true },counter,[start]⟩
  | none => ⟨e,counter,[]⟩

def start_reasoning (e : Extraction) (counter : UInt32) : PartId × Emission :=
  match e.reasoning_id with
  | some id => (id,⟨e,counter,[]⟩)
  | none =>
    let id := reasoningName counter
    (id,⟨{ e with reasoning_id := some id },counter + 1,[.ReasoningStart id none]⟩)

/-- Empty and unterminated sections have a start, too. -/
def end_reasoning (e : Extraction) (counter : UInt32) : Emission :=
  let (id,m) := e.start_reasoning counter
  ⟨{ m.extraction with reasoning_id := none },m.counter,m.out ++ [.ReasoningEnd id none]⟩

def publish (separator text : List Char) (e : Extraction) (counter : UInt32) : Emission :=
  if text = [] then ⟨e,counter,[]⟩
  else
    let continuing := if e.is_reasoning then !e.is_first_reasoning else !e.is_first_text
    let delta := String.ofList ((if e.after_switch && continuing then separator else []) ++ text)
    if e.is_reasoning then
      let (id,m) := e.start_reasoning counter
      ⟨{ m.extraction with is_first_reasoning := false,after_switch := false },m.counter,
        m.out ++ [.ReasoningDelta id delta none]⟩
    else
      let m := e.start_text counter
      ⟨{ m.extraction with is_first_text := false,after_switch := false },m.counter,
        m.out ++ [.TextDelta e.text_id delta none]⟩

def close_reasoning (e : Extraction) (counter : UInt32) : Emission :=
  if e.is_reasoning then e.end_reasoning counter else ⟨e,counter,[]⟩

def finish (separator : List Char) (e : Extraction) (counter : UInt32) : Emission :=
  ((({ e with buffer := [] }).publish separator e.buffer counter).andThen close_reasoning).andThen start_text

/-- What follows a tag. -/
def switch (e : Extraction) : Extraction := { e with is_reasoning := !e.is_reasoning,after_switch := true }

def next_tag (config : ExtractReasoning) (e : Extraction) : List Char :=
  if e.is_reasoning then config.closing_tag else config.opening_tag

def scan (config : ExtractReasoning) : Nat → Extraction → UInt32 → Emission
  | 0,e,counter => ⟨e,counter,[]⟩
  | turns + 1,e,counter =>
    let tag := e.next_tag config
    match potential_start_index e.buffer tag with
    | none => ({ e with buffer := [] }).publish config.separator e.buffer counter
    | some start =>
      (e.publish config.separator (e.buffer.take start) counter).andThen fun e counter =>
        if start + tag.length ≤ e.buffer.length then
          (({ e with buffer := e.buffer.drop (start + tag.length) }).close_reasoning counter).andThen
            fun e counter => e.switch.scan config turns counter
        else ⟨{ e with buffer := e.buffer.drop start },counter,[]⟩

def process_delta (config : ExtractReasoning) (delta : List Char) (e : Extraction) (counter : UInt32) : Emission :=
  let buffer := e.buffer ++ delta
  ({ e with buffer }).scan config (buffer.length + 1) counter

end Extraction

structure StreamState where
  extractions : List (PartId × Extraction)
  next_reasoning_id : UInt32

def StreamState.new : StreamState := ⟨[],0⟩

namespace StreamState

/-- `entry(id).or_insert_with`. -/
def entry (config : ExtractReasoning) (s : StreamState) (id : PartId) : Extraction :=
  (s.extractions.lookup id).getD (.new id config.start_with_reasoning)

def close (config : ExtractReasoning) (counter : UInt32) (id : PartId) (e : Extraction) : UInt32 × List StreamPart :=
  let m := e.finish config.separator counter
  (m.counter,m.out ++ if m.extraction.text_started then [.TextEnd id none] else [])

def close_each (config : ExtractReasoning) : List (PartId × Extraction) → UInt32 → UInt32 × List (PartId × List StreamPart)
  | [],counter => (counter,[])
  | (id,e) :: rest,counter =>
    let (counter,out) := close config counter id e
    let (counter,later) := close_each config rest counter
    (counter,(id,out) :: later)

/-- What `finish_all` emits for each extraction, in the order of their ids. -/
def closings (config : ExtractReasoning) (s : StreamState) : StreamState × List (PartId × List StreamPart) :=
  let (counter,out) := close_each config (s.extractions.insertionSort (·.1 ≤ ·.1)) s.next_reasoning_id
  (⟨[],counter⟩,out)

def finish_all (config : ExtractReasoning) (s : StreamState) : StreamState × List StreamPart :=
  let (s,out) := s.closings config
  (s,out.flatMap (·.2))

def process (config : ExtractReasoning) (s : StreamState) (part : StreamPart) : StreamState × List StreamPart :=
  match part with
  | .TextStart id _ =>
    ({ s with extractions := Assoc.put s.extractions id { s.entry config id with delayed_text_start := some part } },[])
  | .TextEnd id _ =>
    match s.extractions.lookup id with
    | some e =>
      let m := e.finish config.separator s.next_reasoning_id
      (⟨Assoc.remove s.extractions id,m.counter⟩,m.out ++ [part])
    | none => (s,[part])
  | .TextDelta id delta _ =>
    let m := (s.entry config id).process_delta config delta.toList s.next_reasoning_id
    (⟨Assoc.put s.extractions id m.extraction,m.counter⟩,m.out)
  | .Finish .. =>
    let (s,out) := s.finish_all config
    (s,out ++ [part])
  | other => (s,[other])

def process_all (config : ExtractReasoning) : StreamState → List StreamPart → StreamState × List (StreamPart × List StreamPart)
  | s,[] => (s,[])
  | s,part :: rest =>
    let (next,out) := s.process config part
    let (last,later) := next.process_all config rest
    (last,(part,out) :: later)

end StreamState

/-- `ExtractReasoning::apply_stream`. -/
def ExtractReasoning.apply_stream (config : ExtractReasoning) (parts : List StreamPart) : List StreamPart :=
  let (s,out) := StreamState.new.process_all config parts
  out.flatMap (·.2) ++ (s.finish_all config).2

end Ferrin.Middleware
