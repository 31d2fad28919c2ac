import Ferrin.Library.Assoc
import Ferrin.OpenAi.Chat
import Ferrin.Stream.Driver

/-!
The state machine of a streamed chat completion. Its text is one part; its tool
calls are tracked by id, by index, and by which came last.
-/
namespace Ferrin.OpenAi
open Ferrin.Stream Ferrin.Assoc
open OpenAiCompatible (timestamp_from_seconds)

def TEXT_PART_ID : PartId := "0"

structure TrackedToolCall where
  id : String
  name : String
  arguments : String
  finished : Bool

structure ToolCallTracker where
  calls : List TrackedToolCall
  by_id : List (String × Nat)
  by_index : List (Nat × Nat)
  latest : Option Nat

namespace ToolCallTracker

def default : ToolCallTracker := ⟨[],[],[],none⟩

def existing (t : ToolCallTracker) (delta : ChatToolCall) : Option Nat :=
  match delta.id.filter (· ≠ ""),delta.index with
  | some id,_ => t.by_id.lookup id
  | none,some index => t.by_index.lookup index
  | none,none => t.latest

def process_new (t : ToolCallTracker) (delta : ChatToolCall) :
    Except ProviderError (ToolCallTracker × Nat × List StreamPart) :=
  match delta.id,delta.name with
  | none,_ => .error (.invalid_response_data "expected tool call delta to carry an id")
  | some _,none => .error (.invalid_response_data "expected tool call delta to carry a function name")
  | some id,some name =>
    let arguments := delta.arguments.getD ""
    let position := t.calls.length
    .ok ({ t with
        by_id := if id = "" then t.by_id else put t.by_id id position
        calls := t.calls ++ [⟨id,name,arguments,false⟩] },position,
      .ToolInputStart id name false false none none ::
        if arguments = "" then [] else [.ToolInputDelta id arguments none])

def process_existing (t : ToolCallTracker) (position : Nat) (delta : ChatToolCall) :
    ToolCallTracker × List StreamPart :=
  match t.calls[position]? with
  | none => (t,[])
  | some call =>
    if call.finished then (t,[])
    else
      match delta.arguments with
      | none => (t,[])
      | some arguments =>
        ({ t with calls := t.calls.set position { call with arguments := call.arguments ++ arguments } },
          [.ToolInputDelta call.id arguments none])

/-- The call at `position` becomes the latest, and the call of the delta's index. -/
def settle (t : ToolCallTracker) (index : Option Nat) (position : Nat) : ToolCallTracker :=
  { t with
    by_index := match index with
      | some index => put t.by_index index position
      | none => t.by_index
    latest := some position }

def process_delta (t : ToolCallTracker) (delta : ChatToolCall) : ToolCallTracker × List StreamPart :=
  match t.existing delta with
  | some position =>
    let (t,parts) := t.process_existing position delta
    (t.settle delta.index position,parts)
  | none =>
    match t.process_new delta with
    | .error error => (t,[.error error])
    | .ok (t,position,parts) => (t.settle delta.index position,parts)

def process_deltas : ToolCallTracker → List ChatToolCall → ToolCallTracker × List StreamPart
  | t,[] => (t,[])
  | t,delta :: rest =>
    let (t,parts) := t.process_delta delta
    let (t,later) := process_deltas t rest
    (t,parts ++ later)

def closing (call : TrackedToolCall) : List StreamPart :=
  if call.finished then []
  else [.ToolInputEnd call.id none,.ToolCall (.new call.id call.name call.arguments)]

/-- Ends and emits every call that is not finished. -/
def flush (t : ToolCallTracker) : List StreamPart := t.calls.flatMap closing

end ToolCallTracker

/-- State of a streamed completion. `generated` counts the ids taken from the generator. -/
structure ChatStreamState where
  finish_reason : FinishReason
  received_finish_reason : Bool
  usage : Option ChatUsage
  raw_usage : Option JsonObject
  metadata_extracted : Bool
  text_active : Bool
  provider_metadata : JsonObject
  tool_calls : ToolCallTracker
  generated : Nat

namespace ChatStreamState

def new : ChatStreamState where
  finish_reason := .new .Other
  received_finish_reason := false
  usage := none
  raw_usage := none
  metadata_extracted := false
  text_active := false
  provider_metadata := []
  tool_calls := .default
  generated := 0

def response_part (s : ChatStreamState) (value : ChatResponse) : ChatStreamState × List StreamPart :=
  if s.metadata_extracted then (s,[])
  else ({ s with metadata_extracted := true },
    [.ResponseMetadata value.id (timestamp_from_seconds value.created) value.model])

def record_usage (s : ChatStreamState) (value : ChatResponse) (raw : JsonValue) : ChatStreamState :=
  match value.usage with
  | none => s
  | some usage =>
    { s with
      usage := some usage
      raw_usage := (raw.get "usage").bind JsonValue.as_object
      provider_metadata := (prediction_metadata usage).foldl
        (fun metadata entry => JsonObject.insert metadata entry.1 (.number (.PosInt entry.2.toUInt64))) s.provider_metadata }

def record_choice (s : ChatStreamState) (choice : ChatChoice) : ChatStreamState :=
  let s := match choice.finish_reason with
    | some reason => { s with received_finish_reason := true,finish_reason := map_chat_finish_reason reason }
    | none => s
  match choice.logprobs.bind (·.content) with
  | some content => { s with provider_metadata := JsonObject.insert s.provider_metadata "logprobs" (.array content) }
  | none => s

def text_part (s : ChatStreamState) (content : Option String) : ChatStreamState × List StreamPart :=
  match content with
  | none => (s,[])
  | some content =>
    ({ s with text_active := true },(if s.text_active then [] else [.TextStart TEXT_PART_ID none]) ++
      [.TextDelta TEXT_PART_ID content none])

def sources (config : Config) : Nat → List ChatAnnotation → Nat × List StreamPart
  | generated,[] => (generated,[])
  | generated, annotation :: rest =>
    match annotation.url_citation with
    | some citation =>
      if annotation.kind = "url_citation" then
        let (later,others) := sources config (generated + 1) rest
        (later,.Source (.Url (config.generate_id generated) citation.url citation.title none) :: others)
      else sources config generated rest
    | none => sources config generated rest

def message_delta (config : Config) (s : ChatStreamState) (delta : ChatMessage) : ChatStreamState × List StreamPart :=
  let (s,text) := s.text_part delta.content
  let (tool_calls,calls) := s.tool_calls.process_deltas (delta.tool_calls.getD [])
  let (generated,sources) := sources config s.generated (delta.annotations.getD [])
  ({ s with tool_calls,generated },text ++ calls ++ sources)

def handle_value (config : Config) (s : ChatStreamState) (value : ChatResponse) (raw : JsonValue) :
    ChatStreamState × List StreamPart :=
  if value.error.isSome then ({ s with finish_reason := .error },[.Error (stream_error_for_frame config raw)])
  else
    let (s,response) := s.response_part value
    let s := s.record_usage value raw
    match value.choices.bind List.head? with
    | none => (s,response)
    | some choice =>
      let s := s.record_choice choice
      match choice.delta with
      | none => (s,response)
      | some delta =>
        let (s,parts) := s.message_delta config delta
        (s,response ++ parts)

def handle (config : Config) (s : ChatStreamState) (chunk : ParseResult ChatResponse) (include_raw : Bool) :
    ChatStreamState × List StreamPart :=
  match chunk with
  | .Ok value raw =>
    let (s,parts) := s.handle_value config value raw
    (s,(if include_raw then [.Raw raw] else []) ++ parts)
  | .Err error raw =>
    ({ s with finish_reason := .error },
      (match raw with
        | some raw => if include_raw then [.Raw (.string raw)] else []
        | none => []) ++ [.error error])

def finish (config : Config) (s : ChatStreamState) : List StreamPart :=
  if s.received_finish_reason then
    (if s.text_active then [.TextEnd TEXT_PART_ID none] else []) ++ s.tool_calls.flush ++
      [.Finish s.finish_reason ((s.usage.map fun usage => map_chat_usage usage s.raw_usage).getD .default)
        (some (metadata config.provider_options_key s.provider_metadata))]
  else [.error (.invalid_response_data "chat stream ended before a finish reason was received")]

/-- `impl StreamMachine for ChatStreamState`. -/
def machine (config : Config) : StreamMachine ChatStreamState ChatResponse where
  handle s chunk include_raw := some (s.handle config chunk include_raw)
  finish := finish config

end ChatStreamState

end Ferrin.OpenAi
