import Ferrin.Library.Assoc
import Ferrin.OpenAiCompatible.Chat
import Ferrin.Stream.Driver

/-!
The stream of a chat completion. Text and reasoning alternate under the two
fixed ids of the state machine, tool calls are tracked by id and index. The
stream obeys the contract exactly when no text and no reasoning part has to be
started a second time (`chat_stream_obeys_iff`).
-/
namespace Ferrin.OpenAiCompatible
open Ferrin.Stream Ferrin.Assoc

def TEXT_PART_ID : PartId := "txt-0"
def REASONING_PART_ID : PartId := "reasoning-0"

structure TrackedToolCall where
  id : String
  name : String
  arguments : String
  metadata : Option ProviderMetadata

/-- A tool call delta buffered until its function name arrives. -/
structure PendingToolCall where
  id : Option String
  arguments : String
  extra_content : Option JsonValue

/-- The calls seen so far. `generated` counts the ids taken from the generator. -/
structure ToolCallTracker where
  calls : List TrackedToolCall
  by_id : List (String × Nat)
  by_index : List (Nat × Nat)
  latest : Option Nat
  pending : List (Nat × PendingToolCall)
  forwarded : List Nat
  generated : Nat

/-- The configuration of the stream: the id generator, which yields its n-th id
    for `n`, the error structure, the usage converter, and the hooks of the
    metadata extractor with state `ε`. -/
structure Config (ε : Type) where
  generate_id : Nat → String
  error_structure : ErrorStructure
  convert_usage : Option (ChatUsage → Usage)
  process_chunk : ε → JsonValue → ε
  build_metadata : ε → Option ProviderMetadata

namespace ToolCallTracker

def empty : ToolCallTracker := ⟨[],[],[],none,[],[],0⟩

def missingName : ProviderError := .invalid_response_data "expected tool call delta to carry a function name"

def signatureMetadata (key : String) (call : ChatToolCall) : Option ProviderMetadata :=
  call.thought_signature.map fun signature => metadata_under key [("thoughtSignature",.string signature)]

def newId (t : ToolCallTracker) (generate_id : Nat → String) (delta : ChatToolCall) : String × Nat :=
  match delta.id.filter (· ≠ "") with
  | some id => (id,t.generated)
  | none => (generate_id t.generated,t.generated + 1)

def process_new (t : ToolCallTracker) (generate_id : Nat → String) (metadata_key : String) (delta : ChatToolCall) :
    Except ProviderError (ToolCallTracker × Nat × List StreamPart) :=
  match delta.name with
  | none => .error missingName
  | some name =>
    let (id,generated) := t.newId generate_id delta
    let arguments := delta.arguments.getD ""
    let metadata := signatureMetadata metadata_key delta
    let position := t.calls.length
    .ok ({ t with
        by_id := put t.by_id id position
        calls := t.calls ++ [⟨id,name,arguments,metadata⟩]
        generated := generated },position,
      .ToolInputStart id name false false none metadata ::
        if arguments = "" then [] else [.ToolInputDelta id arguments none])

/-- A signature on a later delta is stored under an empty key, see `flush`. -/
def signed (delta : ChatToolCall) (call : TrackedToolCall) : TrackedToolCall :=
  if call.metadata = none then { call with metadata := signatureMetadata "" delta } else call

def process_existing (t : ToolCallTracker) (position : Nat) (delta : ChatToolCall) :
    ToolCallTracker × List StreamPart :=
  match t.calls[position]? with
  | none => (t,[])
  | some call =>
    let call := signed delta call
    match delta.arguments.filter (· ≠ "") with
    | none => ({ t with calls := t.calls.set position call },[])
    | some arguments =>
      ({ t with calls := t.calls.set position { call with arguments := call.arguments ++ arguments } },
        [.ToolInputDelta call.id arguments none])

def existing (t : ToolCallTracker) (delta : ChatToolCall) : Option Nat :=
  match delta.id.bind fun id => if id = "" then none else t.by_id.lookup id with
  | some position => some position
  | none =>
    match delta.index with
    | some index => t.by_index.lookup index
    | none => t.latest

/-- The call at `position` becomes the latest, and the call of the delta's index. -/
def settle (t : ToolCallTracker) (index : Option Nat) (position : Nat) : ToolCallTracker :=
  { t with
    by_index := match index with
      | some index => put t.by_index index position
      | none => t.by_index
    latest := some position }

def process_delta (t : ToolCallTracker) (generate_id : Nat → String) (metadata_key : String) (delta : ChatToolCall) :
    ToolCallTracker × List StreamPart :=
  match t.existing delta with
  | some position =>
    let (t,parts) := t.process_existing position delta
    (t.settle delta.index position,parts)
  | none =>
    match t.process_new generate_id metadata_key delta with
    | .error error => (t,[.error error])
    | .ok (t,position,parts) => (t.settle delta.index position,parts)

def process (t : ToolCallTracker) (generate_id : Nat → String) (metadata_key : String) (delta : ChatToolCall) :
    ToolCallTracker × List StreamPart :=
  match delta.index with
  | none => t.process_delta generate_id metadata_key delta
  | some index =>
    if index ∈ t.forwarded then t.process_delta generate_id metadata_key delta
    else
      let pending := (t.pending.lookup index).getD ⟨none,"",none⟩
      let pending : PendingToolCall := {
        id := pending.id <|> delta.id
        extra_content := pending.extra_content <|> delta.extra_content
        arguments := pending.arguments ++ delta.arguments.getD "" }
      match delta.name with
      | none => ({ t with pending := put t.pending index pending },[])
      | some name =>
        let forward : ChatToolCall := {
          index := some index
          id := pending.id
          function := some ⟨some name,some pending.arguments⟩
          extra_content := pending.extra_content }
        { t with pending := remove t.pending index,forwarded := t.forwarded ++ [index] }.process_delta
          generate_id metadata_key forward

def fixMetadata (metadata_key : String) (metadata : ProviderMetadata) : ProviderMetadata :=
  metadata.foldl (fun fixed entry => (if entry.1 = "" then metadata_key else entry.1,entry.2) ::
    fixed.filter (·.1 ≠ if entry.1 = "" then metadata_key else entry.1)) []

def closing (metadata_key : String) (call : TrackedToolCall) : List StreamPart :=
  [.ToolInputEnd call.id none,
    .ToolCall { ToolCall.new call.id call.name call.arguments with
      provider_metadata := call.metadata.map (fixMetadata metadata_key) }]

def flush (t : ToolCallTracker) (metadata_key : String) : List StreamPart :=
  if t.pending ≠ [] then [.error missingName] else t.calls.flatMap (closing metadata_key)

end ToolCallTracker

structure ChatStreamState (ε : Type) where
  metadata_key : String
  extractor : Option ε
  finish_reason : Option FinishReason
  usage : Option (ChatUsage × Option JsonObject)
  first_chunk : Bool
  text_active : Bool
  reasoning_active : Bool
  tool_calls : ToolCallTracker

namespace ChatStreamState
variable {ε : Type}

def new (metadata_key : String) (extractor : Option ε) : ChatStreamState ε where
  metadata_key := metadata_key
  extractor := extractor
  finish_reason := none
  usage := none
  first_chunk := true
  text_active := false
  reasoning_active := false
  tool_calls := .empty

def end_text (s : ChatStreamState ε) : ChatStreamState ε × List StreamPart :=
  ({ s with text_active := false },if s.text_active then [.TextEnd TEXT_PART_ID none] else [])

def end_reasoning (s : ChatStreamState ε) : ChatStreamState ε × List StreamPart :=
  ({ s with reasoning_active := false },if s.reasoning_active then [.ReasoningEnd REASONING_PART_ID none] else [])

def reasoning_delta (s : ChatStreamState ε) (delta : String) : ChatStreamState ε × List StreamPart :=
  let (s,ended) := s.end_text
  ({ s with reasoning_active := true },ended ++
    (if s.reasoning_active then [] else [.ReasoningStart REASONING_PART_ID none]) ++
    [.ReasoningDelta REASONING_PART_ID delta none])

def text_delta (s : ChatStreamState ε) (delta : String) : ChatStreamState ε × List StreamPart :=
  let (s,ended) := s.end_reasoning
  ({ s with text_active := true },ended ++
    (if s.text_active then [] else [.TextStart TEXT_PART_ID none]) ++
    [.text_delta TEXT_PART_ID delta])

def content (s : ChatStreamState ε) : Content → ChatStreamState ε × List StreamPart
  | .Reasoning text _ => s.reasoning_delta text
  | .Text text _ => s.text_delta text
  | _ => (s,[])

def collect {σ α : Type} (round : σ → α → σ × List StreamPart) : σ → List α → σ × List StreamPart
  | s, [] => (s,[])
  | s, a :: rest =>
    let (s,parts) := round s a
    let (s,later) := collect round s rest
    (s,parts ++ later)

def tool_call_deltas (s : ChatStreamState ε) (config : Config ε) (tool_calls : List ChatToolCall) :
    ChatStreamState ε × List StreamPart :=
  if tool_calls = [] then (s,[])
  else
    let (s,ended) := s.end_reasoning
    let (tracker,parts) :=
      collect (fun t call => t.process config.generate_id s.metadata_key call) s.tool_calls tool_calls
    ({ s with tool_calls := tracker },ended ++ parts)

def message_delta (s : ChatStreamState ε) (config : Config ε) (delta : ChatMessage) :
    ChatStreamState ε × List StreamPart :=
  let (s,reasoning) := match delta.reasoning_text.filter (· ≠ "") with
    | some text => s.reasoning_delta text
    | none => (s,[])
  let (s,contents) := collect content s (convert_content delta.content)
  let (s,tools) := s.tool_call_deltas config (delta.tool_calls.getD [])
  (s,reasoning ++ contents ++ tools)

def handle_value (s : ChatStreamState ε) (config : Config ε) (value : ChatResponse) (raw : JsonValue) :
    ChatStreamState ε × List StreamPart :=
  let s := { s with extractor := s.extractor.map (config.process_chunk · raw) }
  if value.error.isSome then
    ({ s with finish_reason := some .error },[.Error (stream_error_for_frame config.error_structure raw)])
  else
    let first := if s.first_chunk then
      [StreamPart.ResponseMetadata value.id (timestamp_from_seconds value.created) value.model] else []
    let s := { s with first_chunk := false }
    let s := match value.usage with
      | some usage => { s with usage := some (usage,(raw.get "usage").bind JsonValue.as_object) }
      | none => s
    match value.choices.bind List.head? with
    | none => (s,first)
    | some choice =>
      let s := match choice.finish_reason with
        | some reason => { s with finish_reason := some (map_finish_reason reason) }
        | none => s
      match choice.delta with
      | none => (s,first)
      | some delta =>
        let (s,parts) := s.message_delta config delta
        (s,first ++ parts)

def handle (config : Config ε) (s : ChatStreamState ε) (chunk : ParseResult ChatResponse) (include_raw : Bool) :
    ChatStreamState ε × List StreamPart :=
  match chunk with
  | .Ok value raw =>
    let (s,parts) := s.handle_value config value raw
    (s,(if include_raw then [.Raw raw] else []) ++ parts)
  | .Err error raw =>
    ({ s with finish_reason := some .error },
      (match raw with
        | some raw => if include_raw then [.Raw (.string raw)] else []
        | none => []) ++ [.error error])

def finish (config : Config ε) (s : ChatStreamState ε) : List StreamPart :=
  match s.finish_reason with
  | none => [.error (.invalid_response_data "response stream ended without a finish reason")]
  | some finish_reason =>
    let (s,reasoning) := s.end_reasoning
    let (s,text) := s.end_text
    let calls := s.tool_calls.flush s.metadata_key
    let metadata := metadata_under s.metadata_key ((s.usage.map fun usage => prediction_metadata usage.1).getD [])
    let metadata := match s.extractor.bind config.build_metadata with
      | some extra => merge_metadata metadata extra
      | none => metadata
    let usage := match s.usage with
      | some (usage,raw) => match config.convert_usage with
        | some convert => convert usage
        | none => OpenAiCompatible.convert_usage usage raw
      | none => .default
    reasoning ++ text ++ calls ++ [.Finish finish_reason usage (some metadata)]

/-- The machine that `drive_stream` runs. It never panics. -/
def machine (config : Config ε) : StreamMachine (ChatStreamState ε) ChatResponse where
  handle s chunk include_raw := some (handle config s chunk include_raw)
  finish := finish config

end ChatStreamState
end Ferrin.OpenAiCompatible
