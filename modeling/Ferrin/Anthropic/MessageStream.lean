import Ferrin.Anthropic.Message
import Ferrin.Stream.Driver

/-!
The stream of a message. Its blocks are parts named by their index, except that
tool inputs are named by the id of their call. The machine itself reports
nothing when the events end, so that a message has to be stopped, or to fail,
for its stream to end (`message_stream_obeys_iff`).
-/
namespace Ferrin.Anthropic
open Ferrin.Assoc Ferrin.Stream

structure ToolCallBlock where
  tool_call_id : String
  tool_name : ToolName
  input : String
  provider_executed : Bool
  dynamic : Bool
  first_delta : Bool
  provider_tool_name : Option String
  provider_tool_input_type : Option String
  caller : Option ProviderMetadata

inductive Block where
  | Text (citations : List JsonValue)
  | Reasoning (thinking : Bool)
  | ToolCall (block : ToolCallBlock)

structure AnthropicStreamState where
  mapper : OutputMapper
  custom_key : Option String
  finish_reason : FinishReason
  usage : AnthropicUsage
  raw_usage : Option JsonObject
  blocks : List (Nat × Block)
  stop_sequence : Option String
  stop_details : Option StopDetails
  input_transformations : Option JsonValue
  container : Option JsonValue
  context_management : Option ResponseContextManagement
  message_open : Bool
  active_message_id : Option String
  invalid_sequence : Bool

def part_id (index : Nat) : PartId := toString index

def content_to_parts (content : List Content) : List StreamPart :=
  content.filterMap fun
    | .ToolCall call => some (.ToolCall call)
    | .ToolResult result => some (.ToolResult result)
    | .Source source => some (.Source source)
    | _ => none

def tool_input_start (block : ToolCallBlock) : StreamPart :=
  .ToolInputStart block.tool_call_id block.tool_name block.provider_executed block.dynamic none none

def non_empty_input (config : Config) : Option JsonValue → String
  | some (.object (entry :: rest)) => config.to_string (.object (entry :: rest))
  | _ => ""

/-- `&partial_json[1..]`: it panics when the first character is longer than one byte. -/
def sliceOne (text : String) : Option String :=
  match text.toList with
  | [] => none
  | c :: rest => if c.utf8Size = 1 then some (String.ofList rest) else none

namespace AnthropicStreamState

def new (mapper : OutputMapper) (custom_key : Option String) : AnthropicStreamState where
  mapper := mapper
  custom_key := custom_key
  finish_reason := .new .Other
  usage := .default
  raw_usage := none
  blocks := []
  stop_sequence := none
  stop_details := none
  input_transformations := none
  container := none
  context_management := none
  message_open := false
  active_message_id := none
  invalid_sequence := false

def serverTool (config : Config) (name : String) (input : Option JsonValue) :
    Option (String × Option String × String) :=
  match name with
  | "text_editor_code_execution" =>
    some ("code_execution",some "text_editor_code_execution",non_empty_input config input)
  | "bash_code_execution" => some ("code_execution",some "bash_code_execution",non_empty_input config input)
  | "code_execution" => some ("code_execution",some "programmatic-tool-call",non_empty_input config input)
  | "web_fetch" | "web_search" => some (name,none,non_empty_input config input)
  | "tool_search_tool_regex" | "tool_search_tool_bm25" => some (name,none,"")
  | "advisor" => some ("advisor",none,"{}")
  | _ => none

def open_block (s : AnthropicStreamState) (index : Nat) (block : Block) : AnthropicStreamState :=
  { s with blocks := put s.blocks index block }

def block_start (config : Config) (s : AnthropicStreamState) (index : Nat) (block : ContentBlock) :
    AnthropicStreamState × List StreamPart :=
  match block with
  | .Text .. =>
    if s.mapper.uses_json_response_tool then (s,[])
    else (s.open_block index (.Text []),[.TextStart (part_id index) none])
  | .Thinking .. => (s.open_block index (.Reasoning true),[.ReasoningStart (part_id index) none])
  | .RedactedThinking data =>
    (s.open_block index (.Reasoning false),
      [.ReasoningStart (part_id index) (some (anthropic_metadata [("redactedData",.string data)]))])
  | .Compaction .. =>
    (s.open_block index (.Text []),
      [.TextStart (part_id index) (some (anthropic_metadata [("type",.string "compaction")]))])
  | .ToolUse id name input caller =>
    if s.mapper.uses_json_response_tool && name = "json" then
      ({ s with mapper := { s.mapper with json_response_from_tool := true } }.open_block index (.Text []),
        [.TextStart (part_id index) none])
    else
      let initial := non_empty_input config input
      let block : ToolCallBlock := {
        tool_call_id := id
        tool_name := s.mapper.custom_name name
        first_delta := initial = ""
        input := initial
        provider_executed := false
        dynamic := false
        provider_tool_name := none
        provider_tool_input_type := none
        caller := caller_metadata caller }
      (s.open_block index (.ToolCall block),[tool_input_start block])
  | .ServerToolUse id name input caller =>
    match serverTool config name input with
    | none => (s,[])
    | some (provider_name,input_type,initial) =>
      let mapper := if name = "tool_search_tool_regex" || name = "tool_search_tool_bm25" then
        s.mapper.remember_tool_search id name else s.mapper
      let block : ToolCallBlock := {
        tool_call_id := id
        tool_name := s.mapper.custom_name provider_name
        first_delta := initial = "" || provider_name = "advisor"
        input := initial
        provider_executed := true
        dynamic := s.mapper.is_dynamic provider_name
        provider_tool_name := some provider_name
        provider_tool_input_type := input_type
        caller := caller_metadata caller }
      ({ s with mapper := mapper }.open_block index (.ToolCall block),[tool_input_start block])
  | .McpToolUse id name input server_name =>
    let (mapper,call) := s.mapper.mcp_tool_use config id name input server_name
    ({ s with mapper := mapper },[.ToolCall call])
  | .Fallback .. | .Unknown => (s,[])
  | other =>
    let (mapper,content) := s.mapper.map_result_block config other
    ({ s with mapper := mapper },content_to_parts (content.getD []))

def closedInput (config : Config) (block : ToolCallBlock) : String :=
  let input := if block.input = "" then "\x7b\x7d" else block.input
  if block.provider_tool_name = some "code_execution" then
    match config.from_str input with
    | some parsed => config.to_string (programmatic_tool_call parsed)
    | none => input
  else input

def block_stop (config : Config) (s : AnthropicStreamState) (index : Nat) : AnthropicStreamState × List StreamPart :=
  match s.blocks.lookup index with
  | none => (s,[])
  | some block =>
    ({ s with blocks := remove s.blocks index },match block with
      | .Text citations =>
        [.TextEnd (part_id index)
          (if citations = [] then none else some (anthropic_metadata [("citations",.array citations)]))]
      | .Reasoning _ => [.ReasoningEnd (part_id index) none]
      | .ToolCall block =>
        [.ToolInputEnd block.tool_call_id none,
          .ToolCall ⟨block.tool_call_id,block.tool_name,closedInput config block,block.provider_executed,block.dynamic,
            block.caller⟩])

def input_json (s : AnthropicStreamState) (index : Nat) (block : ToolCallBlock) (partial_json : String) :
    Option (AnthropicStreamState × List StreamPart) := do
  let delta ← if block.first_delta then
      match block.provider_tool_input_type with
      | some input_type => do
        let rest ← sliceOne partial_json
        pure ("\x7b\"type\": \"" ++ input_type ++ "\"," ++ rest)
      | none => pure partial_json
    else pure partial_json
  pure (s.open_block index (.ToolCall { block with input := block.input ++ delta,first_delta := false }),
    [.ToolInputDelta block.tool_call_id delta none])

def block_delta (config : Config) (s : AnthropicStreamState) (index : Nat) (delta : Delta) :
    Option (AnthropicStreamState × List StreamPart) :=
  match delta with
  | .Text text =>
    some (s,if s.mapper.uses_json_response_tool then [] else [.text_delta (part_id index) text])
  | .Thinking thinking => some (s,[.ReasoningDelta (part_id index) thinking none])
  | .Signature signature =>
    some (s,match s.blocks.lookup index with
      | some (.Reasoning true) =>
        [.ReasoningDelta (part_id index) "" (some (anthropic_metadata [("signature",.string signature)]))]
      | _ => [])
  | .Compaction content => some (s,(content.map (StreamPart.text_delta (part_id index))).toList)
  | .InputJson partial_json =>
    if partial_json = "" then some (s,[])
    else if s.mapper.json_response_from_tool then
      some (s,match s.blocks.lookup index with
        | some (.Text _) => [.text_delta (part_id index) partial_json]
        | _ => [])
    else match s.blocks.lookup index with
      | some (.ToolCall block) => s.input_json index block partial_json
      | _ => some (s,[])
  | .Citations citation =>
    let s := match s.blocks.lookup index with
      | some (.Text citations) =>
        if (citation.get "type").bind JsonValue.as_str = some "web_search_result_location" then
          s.open_block index (.Text (citations ++ [citation]))
        else s
      | _ => s
    let (mapper,source) := s.mapper.citation_source config citation
    some ({ s with mapper := mapper },(source.map StreamPart.Source).toList)
  | .Unknown => some (s,[])

/-- The parts of a call that `message_start` already carries. -/
def deferred (config : Config) (mapper : OutputMapper) : ContentBlock → List StreamPart
  | .ToolUse id name input caller =>
    let input := config.to_string (input.getD (.object []))
    [.ToolInputStart id (mapper.custom_name name) false false none none,.ToolInputDelta id input none,
      .ToolInputEnd id none,
      .ToolCall { ToolCall.new id (mapper.custom_name name) input with provider_metadata := caller_metadata caller }]
  | _ => []

def stillOpen (config : Config) (message active : Option String) : ProviderError :=
  .invalid_response_data ("received message_start for message " ++ config.to_string (optional message) ++
    " while message " ++ config.to_string (optional active) ++ " is still open")

def message_start (config : Config) (s : AnthropicStreamState) (message : MessageStart) (raw : JsonValue) :
    AnthropicStreamState × List StreamPart :=
  if s.message_open then
    if s.active_message_id = message.id then (s,[])
    else ({ s with invalid_sequence := true },[.error (stillOpen config message.id s.active_message_id)])
  else
    ({ s with
        message_open := true
        active_message_id := message.id
        usage := { s.usage with
          input_tokens := some (message.usage.input_tokens.getD 0)
          cache_read_input_tokens := some (message.usage.cache_read_input_tokens.getD 0)
          cache_creation_input_tokens := some (message.usage.cache_creation_input_tokens.getD 0) }
        raw_usage := ((raw.get "message").bind (·.get "usage")).bind JsonValue.as_object
        input_transformations := message.input_transformations <|> s.input_transformations
        container := (message.container.map fun container => container_metadata container false) <|> s.container
        finish_reason := if message.stop_reason.isSome then
          map_stop_reason message.stop_reason s.mapper.json_response_from_tool else s.finish_reason },
      .ResponseMetadata message.id none message.model ::
        (message.content.getD []).flatMap (deferred config s.mapper))

def message_delta (s : AnthropicStreamState) (delta : MessageDeltaBody) (usage : AnthropicUsage)
    (input_transformations : Option JsonValue) (context_management : Option ResponseContextManagement)
    (raw : JsonValue) : AnthropicStreamState :=
  { s with
    usage := {
      input_tokens := usage.input_tokens <|> s.usage.input_tokens
      output_tokens := usage.output_tokens
      output_tokens_details := usage.output_tokens_details <|> s.usage.output_tokens_details
      cache_read_input_tokens := usage.cache_read_input_tokens <|> s.usage.cache_read_input_tokens
      cache_creation_input_tokens := usage.cache_creation_input_tokens <|> s.usage.cache_creation_input_tokens
      iterations := usage.iterations <|> s.usage.iterations }
    finish_reason := map_stop_reason delta.stop_reason s.mapper.json_response_from_tool
    stop_sequence := delta.stop_sequence
    stop_details := delta.stop_details
    container := delta.container.map fun container => container_metadata container true
    context_management := context_management <|> s.context_management
    input_transformations := input_transformations <|> s.input_transformations
    raw_usage := some (match raw.get "usage" with
      | some (.object usage) => JsonObject.extend (s.raw_usage.getD []) usage
      | _ => s.raw_usage.getD []) }

def message_stop (s : AnthropicStreamState) : AnthropicStreamState × List StreamPart :=
  ({ s with message_open := false,active_message_id := none },
    [.Finish s.finish_reason (convert_usage s.usage s.raw_usage) (some (MessageMetadata.build {
      usage := s.raw_usage
      stop_sequence := s.stop_sequence
      stop_details := s.stop_details
      input_transformations := s.input_transformations
      iterations := s.usage.iterations
      container := s.container
      context_management := s.context_management } s.custom_key))])

def handle_chunk (config : Config) (s : AnthropicStreamState) (chunk : AnthropicChunk) (raw : JsonValue) :
    Option (AnthropicStreamState × List StreamPart) :=
  match chunk with
  | .Ping | .Unknown => some (s,[])
  | .ContentBlockStart index content_block => some (s.block_start config index content_block)
  | .ContentBlockStop index => some (s.block_stop config index)
  | .ContentBlockDelta index delta => s.block_delta config index delta
  | .MessageStart message => some (s.message_start config message raw)
  | .MessageDelta delta usage input_transformations context_management =>
    some (s.message_delta delta usage input_transformations context_management raw,[])
  | .MessageStop => some s.message_stop
  | .Error error => some (s,[.Error (frame_error (.object error))])

def handle (config : Config) (s : AnthropicStreamState) (chunk : ParseResult AnthropicChunk) (include_raw : Bool) :
    Option (AnthropicStreamState × List StreamPart) :=
  if s.invalid_sequence then some (s,[])
  else match chunk with
    | .Ok value raw => do
      let (s,parts) ← s.handle_chunk config value raw
      pure (s,(if include_raw then [.Raw raw] else []) ++ parts)
    | .Err error raw =>
      some (s,(if include_raw then [.Raw (optional raw)] else []) ++ [.error error])

/-- The machine that `drive_stream` runs: it ends without a part. -/
def machine (config : Config) : StreamMachine AnthropicStreamState AnthropicChunk where
  handle := handle config
  finish _ := []

end AnthropicStreamState
end Ferrin.Anthropic
