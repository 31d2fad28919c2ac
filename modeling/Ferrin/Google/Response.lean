import Ferrin.Google.JsonAccumulator
import Ferrin.LanguageModel

/-!
Responses of `generateContent` and the mapping of their parts.
-/
namespace Ferrin.Google

/-! ### Wire types -/

structure FunctionCall where
  id : Option String
  name : Option String
  args : Option JsonValue
  partial_args : Option (List PartialArg)
  will_continue : Option Bool

namespace FunctionCall

def is_streaming_fragment (call : FunctionCall) : Bool :=
  call.partial_args.isSome || (call.name.isSome && call.will_continue = some true)

/-- The empty fragment that terminates a streamed call. -/
def is_terminal (call : FunctionCall) : Bool :=
  call.name.isNone && call.args.isNone && call.partial_args.isNone && call.will_continue.isNone

def completes_stream (call : FunctionCall) : Bool :=
  call.will_continue ≠ some true && (call.partial_args.getD []).all fun arg => arg.will_continue ≠ some true

end FunctionCall

structure InlineData where
  mime_type : String
  data : String

structure ExecutableCode where
  language : Option String
  code : Option String

structure CodeExecutionResult where
  outcome : Option String
  output : Option String

structure ServerToolCall where
  tool_type : Option String
  args : Option JsonValue
  id : Option String

structure Part where
  text : Option String
  thought : Option Bool
  thought_signature : Option String
  function_call : Option FunctionCall
  inline_data : Option InlineData
  executable_code : Option ExecutableCode
  code_execution_result : Option CodeExecutionResult
  tool_call : Option ServerToolCall
  tool_response : Option JsonValue

structure Candidate where
  parts : Option (List Part)
  finish_reason : Option String
  finish_message : Option String
  safety_ratings : Option JsonValue
  grounding_metadata : Option JsonValue
  url_context_metadata : Option JsonValue

structure UsageMetadata where
  prompt_token_count : Option Nat
  candidates_token_count : Option Nat
  cached_content_token_count : Option Nat
  thoughts_token_count : Option Nat
  service_tier : Option String

structure GenerateContentResponse where
  candidates : Option (List Candidate)
  usage_metadata : Option UsageMetadata
  prompt_feedback : Option JsonValue
  response_id : Option String

def GenerateContentResponse.block_reason (value : GenerateContentResponse) : Option String :=
  (value.prompt_feedback.bind (·.get "blockReason")).bind JsonValue.as_str

def GenerateContentResponse.candidate (value : GenerateContentResponse) : Option Candidate :=
  value.candidates.bind List.head?

structure WebChunk where
  uri : Option String
  title : Option String

structure ImageChunk where
  source_uri : Option String
  image_uri : Option String
  title : Option String

structure RetrievedContextChunk where
  uri : Option String
  title : Option String
  file_search_store : Option String

structure GroundingChunk where
  web : Option WebChunk
  image : Option ImageChunk
  retrieved_context : Option RetrievedContextChunk
  maps : Option WebChunk

/-- The provider's name and tool names, `serde_json`, the base64 decoder, and the id generator, which yields its
n-th id for `n`. -/
structure Config where
  options_key : String
  to_custom : List (String × String)
  primitives : Primitives
  grounding_chunk : JsonValue → Option GroundingChunk
  decode_base64 : String → Except String (List UInt8)
  generate_id : Nat → String

/-- Maps the parts of one response. `generated` counts the ids taken from the generator. -/
structure OutputMapper where
  last_code_execution_id : Option String
  last_server_tool_call_id : Option String
  generated : Nat

def CANONICAL_OPTIONS_KEY : String := "google"
def CODE_EXECUTION_TOOL_NAME : String := "code_execution"

def map_finish_reason (reason : Option String) (has_tool_calls : Bool) : FinishReason :=
  let unified : FinishReasonKind := match reason with
    | some "STOP" => if has_tool_calls then .ToolCalls else .Stop
    | some "MAX_TOKENS" => .Length
    | some "IMAGE_SAFETY" | some "RECITATION" | some "SAFETY" | some "BLOCKLIST" | some "PROHIBITED_CONTENT"
    | some "SPII" => .ContentFilter
    | some "MALFORMED_FUNCTION_CALL" => .Error
    | _ => .Other
  match reason with
  | some raw => .with_raw unified raw
  | none => .new unified

/-- The total is a 64-bit sum. -/
def convert_usage (usage : Option UsageMetadata) (raw : Option JsonObject) : Usage :=
  match usage with
  | none => .default
  | some usage =>
    let prompt := usage.prompt_token_count.getD 0
    let candidates := usage.candidates_token_count.getD 0
    let cached := usage.cached_content_token_count.getD 0
    let thoughts := usage.thoughts_token_count.getD 0
    { input := ⟨some prompt,some (prompt - cached),some cached,none⟩
      output := ⟨some ((candidates + thoughts) % 2 ^ 64),some candidates,some thoughts⟩
      raw := raw }

/-- `to_ascii_lowercase` and `ends_with`. -/
def endsWithIgnoringCase (text suffix : String) : Bool := suffix.toList.isSuffixOf (text.toList.map Char.toLower)

def document_media_type (uri : String) : String :=
  if endsWithIgnoringCase uri ".pdf" then "application/pdf"
  else if endsWithIgnoringCase uri ".txt" then "text/plain"
  else if endsWithIgnoringCase uri ".docx" then
    "application/vnd.openxmlformats-officedocument.wordprocessingml.document"
  else if endsWithIgnoringCase uri ".doc" then "application/msword"
  else if endsWithIgnoringCase uri ".md" || endsWithIgnoringCase uri ".markdown" then "text/markdown"
  else "application/octet-stream"

def last_segment (path : String) : Option String :=
  ((split '/' path.toList).getLast?.filter (· ≠ [])).map String.ofList

def metadata (config : Config) (object : JsonObject) : ProviderMetadata :=
  if config.options_key = CANONICAL_OPTIONS_KEY then [(CANONICAL_OPTIONS_KEY,object)]
  else if config.options_key < CANONICAL_OPTIONS_KEY then [(config.options_key,object),(CANONICAL_OPTIONS_KEY,object)]
  else [(CANONICAL_OPTIONS_KEY,object),(config.options_key,object)]

def thoughtSignature (signature : Option String) : JsonObject :=
  (signature.map fun signature => ("thoughtSignature",JsonValue.string signature)).toList

def signature_metadata (config : Config) (signature : Option String) : Option ProviderMetadata :=
  signature.map fun signature => metadata config (thoughtSignature (some signature))

def custom_tool_name (config : Config) (provider_name : String) : String :=
  (config.to_custom.lookup provider_name).getD provider_name

/-- `serde_json::Value::to_string`. -/
def to_string (config : Config) (value : JsonValue) : String := String.ofList (write_compact config.primitives value)

def optional (text : Option String) : JsonValue :=
  match text with
  | some text => .string text
  | none => .null

def code_execution_metadata (config : Config) (signature : Option String) : ProviderMetadata :=
  metadata config (("serverToolType",.string "code_execution") :: thoughtSignature signature)

namespace OutputMapper

def new : OutputMapper := ⟨none,none,0⟩

def generate_id (m : OutputMapper) (config : Config) : OutputMapper × String :=
  ({ m with generated := m.generated + 1 },config.generate_id m.generated)

def id_or_generated (m : OutputMapper) (config : Config) (id : Option String) : OutputMapper × String :=
  match id.filter (· ≠ "") with
  | some id => (m,id)
  | none => m.generate_id config

def code_execution_call_with_signature (m : OutputMapper) (config : Config) (language code signature : Option String) :
    OutputMapper × ToolCall :=
  let (m,id) := m.generate_id config
  ({ m with last_code_execution_id := some id },
    { ToolCall.new id (custom_tool_name config CODE_EXECUTION_TOOL_NAME)
        (to_string config (.object [("language",optional language),("code",optional code)])) with
      provider_executed := true
      provider_metadata := some (code_execution_metadata config signature) })

def code_execution_result_with_signature (m : OutputMapper) (config : Config) (outcome output signature : Option String) :
    OutputMapper × ProviderToolResult :=
  let (m,id) := match m.last_code_execution_id with
    | some id => ({ m with last_code_execution_id := none },id)
    | none => m.generate_id config
  (m,
    { tool_call_id := id
      tool_name := custom_tool_name config CODE_EXECUTION_TOOL_NAME
      result := .object [("outcome",optional outcome),("output",.string (output.getD ""))]
      is_error := false
      preliminary := false
      dynamic := false
      provider_metadata := some (code_execution_metadata config signature) })

def function_call (m : OutputMapper) (config : Config) (id : Option String) (name : String) (args : Option JsonValue)
    (signature : Option String) : OutputMapper × ToolCall :=
  let (m,id) := m.id_or_generated config id
  (m,{ ToolCall.new id (custom_tool_name config name) (to_string config (args.getD (.object []))) with
    provider_metadata := signature_metadata config signature })

def server_tool_call (m : OutputMapper) (config : Config) (tool_type : Option String) (args : Option JsonValue)
    (id signature : Option String) : OutputMapper × ToolCall :=
  let tool_type := tool_type.getD "unknown"
  let (m,id) := m.id_or_generated config id
  ({ m with last_server_tool_call_id := some id },
    { ToolCall.new id ("server:" ++ tool_type) (to_string config (args.getD (.object []))) with
      provider_executed := true
      dynamic := true
      provider_metadata := some (metadata config (thoughtSignature signature ++
        [("serverToolCallId",.string id),("serverToolType",.string tool_type)])) })

def server_tool_response (m : OutputMapper) (config : Config) (response : JsonValue) : OutputMapper × ProviderToolResult :=
  let tool_type := ((response.get "toolType").bind JsonValue.as_str).getD "unknown"
  let (m,id) := match m.last_server_tool_call_id with
    | some id => ({ m with last_server_tool_call_id := none },id)
    | none =>
      match (response.get "id").bind JsonValue.as_str with
      | some id => (m,id)
      | none => m.generate_id config
  (m,
    { tool_call_id := id
      tool_name := "server:" ++ tool_type
      result := response
      is_error := false
      preliminary := false
      dynamic := true
      provider_metadata := none })

def source (m : OutputMapper) (config : Config) (make : String → Source) : OutputMapper × List Source :=
  let (m,id) := m.generate_id config
  (m,[make id])

def chunk_sources (m : OutputMapper) (config : Config) (chunk : GroundingChunk) : OutputMapper × List Source :=
  let (m,web) := match chunk.web.bind (·.uri) with
    | some uri => m.source config (.Url · uri (chunk.web.bind (·.title)) none)
    | none => (m,[])
  let (m,image) := match chunk.image.bind fun image => image.source_uri <|> image.image_uri with
    | some uri => m.source config (.Url · uri (chunk.image.bind (·.title)) none)
    | none => (m,[])
  let (m,context) := match chunk.retrieved_context with
    | none => (m,[])
    | some context =>
      match context.uri,context.file_search_store with
      | some uri,_ =>
        if uri.startsWith "http://" || uri.startsWith "https://" then m.source config (.Url · uri context.title none)
        else m.source config
          (.Document · (document_media_type uri) (context.title.getD "Unknown Document") (last_segment uri) none)
      | none,some store => m.source config
          (.Document · "application/octet-stream" (context.title.getD "Unknown Document") (last_segment store) none)
      | none,none => (m,[])
  let (m,maps) := match chunk.maps.bind (·.uri) with
    | some uri => m.source config (.Url · uri (chunk.maps.bind (·.title)) none)
    | none => (m,[])
  (m,web ++ image ++ context ++ maps)

def sources (config : Config) : OutputMapper → List GroundingChunk → OutputMapper × List Source
  | m,[] => (m,[])
  | m,chunk :: rest =>
    let (m,first) := m.chunk_sources config chunk
    let (m,others) := sources config m rest
    (m,first ++ others)

end OutputMapper

def inline_file (config : Config) (mime_type data : String) (thought : Bool) (signature : Option String) :
    Except ProviderError Content :=
  match config.decode_base64 data with
  | .error error => .error (.invalid_response_data ("invalid base64 inline data: " ++ error))
  | .ok bytes => .ok (if thought then .ReasoningFile (.Bytes bytes) mime_type (signature_metadata config signature)
      else .File (.Bytes bytes) mime_type none (signature_metadata config signature))

def Candidate.grounding_chunks (config : Config) (candidate : Candidate) : List GroundingChunk :=
  match (candidate.grounding_metadata.bind (·.get "groundingChunks")).bind JsonValue.as_array with
  | some chunks => chunks.filterMap config.grounding_chunk
  | none => []

end Ferrin.Google
