import Ferrin.Google.Response
import Ferrin.Stream.Driver

/-!
The state machine of `streamGenerateContent`. Text and reasoning blocks are
numbered as they are opened; the streamed function calls in progress are a
stack of which the last receives arguments.
-/
namespace Ferrin.Google
open Ferrin.Stream

structure ActiveToolCall where
  id : ToolCallId
  tool_name : ToolName
  accumulator : JsonAccumulator
  provider_metadata : Option ProviderMetadata

structure GoogleStreamState where
  mapper : OutputMapper
  finish_reason : FinishReason
  received_finish_reason : Bool
  usage : Option UsageMetadata
  raw_usage : Option JsonObject
  provider_metadata : Option ProviderMetadata
  last_grounding_metadata : Option JsonValue
  last_url_context_metadata : Option JsonValue
  has_tool_calls : Bool
  emitted_response_metadata : Bool
  text_block : Option PartId
  reasoning_block : Option PartId
  block_counter : Nat
  emitted_source_urls : List String
  active_calls : List ActiveToolCall

namespace GoogleStreamState

def new (mapper : OutputMapper) : GoogleStreamState where
  mapper := mapper
  finish_reason := .new .Other
  received_finish_reason := false
  usage := none
  raw_usage := none
  provider_metadata := none
  last_grounding_metadata := none
  last_url_context_metadata := none
  has_tool_calls := false
  emitted_response_metadata := false
  text_block := none
  reasoning_block := none
  block_counter := 0
  emitted_source_urls := []
  active_calls := []

/-- The id of the block that is opened when the counter stands at `n`. -/
def block_id (n : Nat) : PartId := toString n

def next_block_id (s : GoogleStreamState) : GoogleStreamState × PartId :=
  ({ s with block_counter := s.block_counter + 1 },block_id s.block_counter)

def end_text (s : GoogleStreamState) : GoogleStreamState × List StreamPart :=
  match s.text_block with
  | some id => ({ s with text_block := none },[.TextEnd id none])
  | none => (s,[])

def end_reasoning (s : GoogleStreamState) : GoogleStreamState × List StreamPart :=
  match s.reasoning_block with
  | some id => ({ s with reasoning_block := none },[.ReasoningEnd id none])
  | none => (s,[])

def finish_active_call (config : Config) (s : GoogleStreamState) : GoogleStreamState × List StreamPart :=
  match s.active_calls.getLast? with
  | none => (s,[])
  | some active =>
    let (final_json,closing_delta) := active.accumulator.finalize config.primitives
    ({ s with active_calls := s.active_calls.dropLast,has_tool_calls := true },
      (if closing_delta = [] then []
        else [.ToolInputDelta active.id (String.ofList closing_delta) active.provider_metadata]) ++
        [.ToolInputEnd active.id active.provider_metadata,
          .ToolCall { ToolCall.new active.id active.tool_name (String.ofList final_json) with
            provider_metadata := active.provider_metadata }])

def finish_metadata (config : Config) (s : GoogleStreamState) (response : GenerateContentResponse)
    (candidate_safety : Option JsonValue) (finish_message : Option String) : ProviderMetadata :=
  metadata config
    [("promptFeedback",response.prompt_feedback.getD .null),
      ("groundingMetadata",s.last_grounding_metadata.getD .null),
      ("urlContextMetadata",s.last_url_context_metadata.getD .null),
      ("safetyRatings",candidate_safety.getD .null),
      ("usageMetadata",(s.raw_usage.map .object).getD .null),
      ("finishMessage",optional finish_message),
      ("serviceTier",optional (s.usage.bind (·.service_tier)))]

def reasoning (s : GoogleStreamState) (metadata : Option ProviderMetadata) :
    GoogleStreamState × PartId × List StreamPart :=
  match s.reasoning_block with
  | some id => (s,id,[])
  | none =>
    let (s,id) := s.next_block_id
    ({ s with reasoning_block := some id },id,[.ReasoningStart id metadata])

def text (s : GoogleStreamState) (metadata : Option ProviderMetadata) :
    GoogleStreamState × PartId × List StreamPart :=
  match s.text_block with
  | some id => (s,id,[])
  | none =>
    let (s,id) := s.next_block_id
    ({ s with text_block := some id },id,[.TextStart id metadata])

def text_part (config : Config) (s : GoogleStreamState) (text : String) (thought : Bool) (signature : Option String) :
    GoogleStreamState × List StreamPart :=
  let metadata := signature_metadata config signature
  if text = "" then
    match metadata,s.text_block with
    | some _,some id => (s,[.TextDelta id "" metadata])
    | _,_ => (s,[])
  else if thought then
    let (s,ended) := s.end_text
    let (s,id,begun) := s.reasoning metadata
    (s,ended ++ begun ++ [.ReasoningDelta id text metadata])
  else
    let (s,ended) := s.end_reasoning
    let (s,id,begun) := s.text metadata
    (s,ended ++ begun ++ [.TextDelta id text metadata])

def file_parts : Except ProviderError Content → List StreamPart
  | .ok (.ReasoningFile data media_type provider_metadata) => [.ReasoningFile data media_type provider_metadata]
  | .ok (.File data media_type filename provider_metadata) => [.File data media_type filename provider_metadata]
  | .ok _ => []
  | .error error => [.error error]

def content_parts (config : Config) (s : GoogleStreamState) (part : Part) : GoogleStreamState × List StreamPart :=
  let signature := part.thought_signature
  match part.executable_code.filter (·.code.isSome) with
  | some code =>
    let (mapper,call) := s.mapper.code_execution_call_with_signature config code.language code.code signature
    ({ s with mapper },[.ToolCall call])
  | none =>
  match part.code_execution_result with
  | some result =>
    let (mapper,result) := s.mapper.code_execution_result_with_signature config result.outcome result.output signature
    ({ s with mapper },[.ToolResult result])
  | none =>
  match part.text with
  | some text => s.text_part config text (part.thought = some true) signature
  | none =>
  match part.inline_data with
  | some inline =>
    let (s,text) := s.end_text
    let (s,reasoning) := s.end_reasoning
    (s,text ++ reasoning ++
      file_parts (inline_file config inline.mime_type inline.data (part.thought = some true) signature))
  | none =>
  match part.tool_call with
  | some call =>
    let (mapper,call) := s.mapper.server_tool_call config call.tool_type call.args call.id signature
    ({ s with mapper },[.ToolCall call])
  | none =>
  match part.tool_response with
  | some response =>
    let (mapper,result) := s.mapper.server_tool_response config response
    ({ s with mapper },[.ToolResult result])
  | none => (s,[])

def complete_call (config : Config) (s : GoogleStreamState) (call : FunctionCall) (name : String)
    (metadata : Option ProviderMetadata) : GoogleStreamState × List StreamPart :=
  let (mapper,mapped) := s.mapper.function_call config call.id name call.args none
  let id := mapped.tool_call_id
  ({ s with mapper,has_tool_calls := true },
    .ToolInputStart id mapped.tool_name false false none metadata ::
      (if call.args.isSome then [.ToolInputDelta id mapped.input metadata] else []) ++
      [.ToolInputEnd id metadata,
        .ToolCall { ToolCall.new id mapped.tool_name mapped.input with provider_metadata := metadata }])

/-- A named fragment begins a call on top of those in progress. -/
def begin_call (config : Config) (s : GoogleStreamState) (call : FunctionCall) (metadata : Option ProviderMetadata) :
    GoogleStreamState × List StreamPart :=
  match call.name with
  | none => (s,[])
  | some name =>
    let (mapper,id) := s.mapper.id_or_generated config call.id
    let tool_name := custom_tool_name config name
    ({ s with mapper,active_calls := s.active_calls ++ [⟨id,tool_name,.new,metadata⟩] },
      [.ToolInputStart id tool_name false false none metadata])

def fill_call (config : Config) (s : GoogleStreamState) (partial_args : List PartialArg)
    (metadata : Option ProviderMetadata) : GoogleStreamState × List StreamPart :=
  match s.active_calls.getLast? with
  | none => (s,[])
  | some active =>
    let (accumulator,delta) := active.accumulator.process config.primitives partial_args
    ({ s with active_calls := s.active_calls.dropLast ++ [{ active with accumulator }] },
      if delta = [] then [] else [.ToolInputDelta active.id (String.ofList delta) metadata])

def function_call_part (config : Config) (s : GoogleStreamState) (part : Part) : GoogleStreamState × List StreamPart :=
  match part.function_call with
  | none => (s,[])
  | some call =>
    let metadata := signature_metadata config part.thought_signature
    if call.is_streaming_fragment then
      let (s,begun) := s.begin_call config call metadata
      match call.partial_args with
      | none => (s,begun)
      | some partial_args =>
        let (s,filled) := s.fill_call config partial_args metadata
        let (s,finished) := if call.completes_stream then s.finish_active_call config else (s,[])
        (s,begun ++ filled ++ finished)
    else if call.is_terminal then
      if s.active_calls = [] then (s,[]) else s.finish_active_call config
    else
      match call.name with
      | some name => s.complete_call config call name metadata
      | none => (s,[])

def source_part (s : GoogleStreamState) (source : Source) : GoogleStreamState × List StreamPart :=
  match source with
  | .Url _ url _ _ =>
    if url ∈ s.emitted_source_urls then (s,[])
    else ({ s with emitted_source_urls := s.emitted_source_urls ++ [url] },[.Source source])
  | .Document .. => (s,[.Source source])

def each {α : Type} (f : GoogleStreamState → α → GoogleStreamState × List StreamPart) :
    GoogleStreamState → List α → GoogleStreamState × List StreamPart
  | s,[] => (s,[])
  | s,item :: rest =>
    let (s,first) := f s item
    let (s,others) := each f s rest
    (s,first ++ others)

def response_part (s : GoogleStreamState) (value : GenerateContentResponse) : GoogleStreamState × List StreamPart :=
  match value.response_id with
  | some id =>
    if s.emitted_response_metadata then (s,[])
    else ({ s with emitted_response_metadata := true },[.ResponseMetadata (some id) none none])
  | none => (s,[])

def record_usage (s : GoogleStreamState) (value : GenerateContentResponse) (raw : JsonValue) : GoogleStreamState :=
  match value.usage_metadata with
  | some usage => { s with usage := some usage,raw_usage := (raw.get "usageMetadata").bind JsonValue.as_object }
  | none => s

/-- A chunk without a candidate: the prompt may be blocked. -/
def blocked (config : Config) (s : GoogleStreamState) (value : GenerateContentResponse) : GoogleStreamState :=
  match value.block_reason with
  | some reason =>
    { s with
      received_finish_reason := true
      finish_reason := .with_raw .ContentFilter reason
      provider_metadata := some (s.finish_metadata config value none none) }
  | none => s

def record_grounding (s : GoogleStreamState) (candidate : Candidate) : GoogleStreamState :=
  { s with
    last_grounding_metadata := candidate.grounding_metadata <|> s.last_grounding_metadata
    last_url_context_metadata := candidate.url_context_metadata <|> s.last_url_context_metadata }

def record_finish (config : Config) (s : GoogleStreamState) (value : GenerateContentResponse) (candidate : Candidate) :
    GoogleStreamState :=
  let prompt_blocked := candidate.finish_reason.isNone ∧ value.block_reason.isSome
  match candidate.finish_reason <|> value.block_reason with
  | none => s
  | some raw_reason =>
    { s with
      received_finish_reason := true
      finish_reason := if prompt_blocked then .with_raw .ContentFilter raw_reason
        else map_finish_reason (some raw_reason) s.has_tool_calls
      provider_metadata := some (s.finish_metadata config value candidate.safety_ratings candidate.finish_message) }

def handle_chunk (config : Config) (s : GoogleStreamState) (value : GenerateContentResponse) (raw : JsonValue) :
    GoogleStreamState × List StreamPart :=
  let (s,response) := s.response_part value
  let s := s.record_usage value raw
  match value.candidate with
  | none => (s.blocked config value,response)
  | some candidate =>
    let s := s.record_grounding candidate
    let (mapper,found) := s.mapper.sources config (candidate.grounding_chunks config)
    let (s,sources) := each source_part { s with mapper } found
    let (s,content) := each (content_parts config) s (candidate.parts.getD [])
    let (s,calls) := each (function_call_part config) s (candidate.parts.getD [])
    (s.record_finish config value candidate,response ++ sources ++ content ++ calls)

def handle (config : Config) (s : GoogleStreamState) (chunk : ParseResult GenerateContentResponse)
    (include_raw : Bool) : GoogleStreamState × List StreamPart :=
  match chunk with
  | .Ok value raw =>
    let (s,parts) := s.handle_chunk config value raw
    (s,(if include_raw then [.Raw raw] else []) ++ parts)
  | .Err error raw =>
    (s,(if include_raw then [.Raw ((raw.map .string).getD .null)] else []) ++ [.error error])

def finish (s : GoogleStreamState) : List StreamPart :=
  if ¬ s.received_finish_reason ∨ s.active_calls ≠ [] then
    [.error (.invalid_response_data "google stream ended before completion")]
  else
    let (s,text) := s.end_text
    let (s,reasoning) := s.end_reasoning
    text ++ reasoning ++ [.Finish s.finish_reason (convert_usage s.usage s.raw_usage) s.provider_metadata]

/-- `impl StreamMachine for GoogleStreamState`. -/
def machine (config : Config) : StreamMachine GoogleStreamState GenerateContentResponse where
  handle s chunk include_raw := some (s.handle config chunk include_raw)
  finish := finish

end GoogleStreamState

end Ferrin.Google
