import Ferrin.Google.Response
import Ferrin.Json.Object

/-!
The steps of an interaction and the content they hold.
-/
namespace Ferrin

def JsonValue.index (v : JsonValue) (key : String) : JsonValue := (v.get key).getD .null

/-- Assignment through an index. The steps it is used on are objects. -/
def JsonValue.assign (v : JsonValue) (key : String) (value : JsonValue) : JsonValue :=
  match v with
  | .object entries => .object (JsonObject.insert entries key value)
  | v => v

def JsonValue.text (v : JsonValue) (key : String) : Option String := (v.index key).as_str

def JsonValue.items (v : JsonValue) (key : String) : List JsonValue := ((v.index key).as_array).getD []

namespace Google.Interactions

/-- The configuration of the interactions API: the provider's name, the URL parser, and the JSON parser. -/
structure Config extends Google.Config where
  name : String
  parse_url : String → Option String
  parse_json : String → Option JsonValue

def bad_response (message : String) : ProviderError := .invalid_response_data message

/-- The metadata under `google`, and under the configured name when it differs. -/
def metadata (config : Config) (object : JsonObject) : ProviderMetadata :=
  Google.metadata { config.toConfig with options_key := config.name } object

def nonempty (text : Option String) : Option String := text.filter (· ≠ "")

def entry (key : String) (value : Option JsonValue) : JsonObject := (value.map fun value => (key,value)).toList

def part_metadata (config : Config) (step : JsonValue) (interaction_id : Option String) : ProviderMetadata :=
  let kind := step.text "type"
  metadata config (entry "interactionId" ((nonempty interaction_id).map .string) ++
    entry "signature" (step.get "signature") ++ entry "stepType" (kind.map .string) ++
    (if kind = some "processing_call" then [("processingId",step.index "id")] else []) ++
    (if kind = some "processing_result" then [("processingCallId",step.index "call_id")] else []))

def usage (value : JsonValue) : Usage :=
  let input := (value.index "total_input_tokens").as_u64
  let cache := (value.index "total_cached_tokens").as_u64
  let output := (value.index "total_output_tokens").as_u64
  let thought := (value.index "total_thought_tokens").as_u64
  { input := ⟨input,input.map (· - cache.getD 0),cache,none⟩
    output := ⟨if output.isSome ∨ thought.isSome then some (min (output.getD 0 + thought.getD 0) (2 ^ 64 - 1)) else none,
      output,thought⟩
    raw := value.as_object }

def finish (status : String) (function : Bool) : FinishReason :=
  .with_raw (match status with
    | "requires_action" => .ToolCalls
    | "completed" => if function then .ToolCalls else .Stop
    | "incomplete" => .Length
    | "failed" => .Error
    | _ => .Other) status

def modalityTokens (entry : JsonValue) : Option (String × JsonValue) := do
  return (← entry.text "modality",← entry.get "tokens")

def response_metadata (config : Config) (value : JsonValue) : ProviderMetadata :=
  let by_modality := JsonObject.extend [] (((value.index "usage").items "output_tokens_by_modality").filterMap modalityTokens)
  metadata config (entry "interactionId" ((nonempty (value.text "id")).map .string) ++
    entry "serviceTier" (value.get "service_tier") ++
    (if by_modality = [] then [] else [("outputTokensByModality",.object by_modality)]))

/-! ### Sources -/

def url (config : Config) (generated : Nat) (value : JsonValue) (title_key : String) : Nat × Option Source :=
  (generated + 1,(nonempty (value.text "url")).map fun url =>
    .Url (config.generate_id generated) url (nonempty (value.text title_key)) none)

/-- `rsplit('.').next()` in lower case. -/
def extension (uri : String) : String :=
  String.ofList ((((split '.' uri.toList).getLast?).getD []).map Char.toLower)

def media_type (uri : String) : MediaType :=
  match extension uri with
  | "pdf" => "application/pdf"
  | "txt" => "text/plain"
  | "md" | "markdown" => "text/markdown"
  | "doc" => "application/msword"
  | "docx" => "application/vnd.openxmlformats-officedocument.wordprocessingml.document"
  | _ => "application/octet-stream"

def document (config : Config) (generated : Nat) (value : JsonValue) : Nat × Option Source :=
  let file_name := nonempty (value.text "file_name")
  match nonempty (value.text "url") <|> nonempty (value.text "document_uri") <|> file_name with
  | none => (generated,none)
  | some uri =>
    let title := nonempty (value.text "title") <|> file_name
    let id := config.generate_id generated
    if uri.startsWith "https://" || uri.startsWith "http://" then (generated + 1,some (.Url id uri title none))
    else
      let filename := file_name <|> last_segment uri
      (generated + 1,some (.Document id (media_type uri) ((title <|> filename).getD uri) filename none))

def key : Source → String
  | .Url _ url _ _ => "url:" ++ url
  | .Document _ _ title filename _ => "doc:" ++ filename.getD title

/-- One reader after the other, with the ids they take. -/
def gather (read : Nat → JsonValue → Nat × List Source) : Nat → List JsonValue → Nat × List Source
  | generated,[] => (generated,[])
  | generated,value :: rest =>
    let (generated,first) := read generated value
    let (generated,others) := gather read generated rest
    (generated,first ++ others)

def single (read : Nat × Option Source) : Nat × List Source := (read.1,read.2.toList)

def annotation (config : Config) (generated : Nat) ( annotation : JsonValue) : Nat × List Source :=
  match annotation.text "type" with
  | some "url_citation" => single (url config generated annotation "title")
  | some "place_citation" => single (url config generated annotation "name")
  | some "file_citation" => single (document config generated annotation)
  | _ => (generated,[])

def cited (config : Config) (kind : Option String) (generated : Nat) (result : JsonValue) : Nat × List Source :=
  match kind with
  | some "google_search_result" => single (url config generated result "title")
  | some "url_context_result" =>
    match result.get "status" with
    | none | some .null | some (.string "success") => single (url config generated result "title")
    | some _ => (generated,[])
  | some "google_maps_result" =>
    gather (fun generated place => single (url config generated place "name")) generated (result.items "places")
  | some "file_search_result" => single (document config generated result)
  | _ => (generated,[])

def distinct : List String → List Source → List Source
  | _,[] => []
  | seen,source :: rest =>
    if key source ∈ seen then distinct seen rest else source :: distinct (key source :: seen) rest

def extract (config : Config) (generated : Nat) (block : JsonValue) : Nat × List Content :=
  let (generated,annotations) := gather ( annotation config) generated (block.items "annotations")
  let (generated,results) := gather (cited config (block.text "type")) generated (block.items "result")
  (generated,(distinct [] (annotations ++ results)).map .Source)

def default_media (kind : String) : MediaType :=
  match kind with
  | "image" => "image/png"
  | "audio" => "audio/pcm"
  | "video" => "video/mp4"
  | _ => "application/octet-stream"

def file_data (config : Config) (block : JsonValue) : Except ProviderError (Option FileData) :=
  match nonempty (block.text "data") with
  | some data =>
    match config.decode_base64 data with
    | .ok bytes => .ok (some (.Bytes bytes))
    | .error _ => .error (bad_response "invalid interactions file base64")
  | none =>
    match block.text "uri" with
    | some uri =>
      match config.parse_url uri with
      | some url => .ok (some (.Url url))
      | none => .error (bad_response "invalid interactions file URL")
    | none => .ok none

def isMedia (kind : String) : Bool := kind ∈ ["image","audio","video","document"]

def block (config : Config) (generated : Nat) (block : JsonValue) (metadata : ProviderMetadata) :
    Nat × Except ProviderError (List Content) :=
  match block.text "type" with
  | none => (generated,.ok [])
  | some kind =>
    if kind = "text" then
      let (generated,sources) := extract config generated block
      (generated,.ok (.Text ((block.text "text").getD "") (some metadata) :: sources))
    else if isMedia kind then
      (generated,(file_data config block).map fun data => data.toList.map fun data =>
        .File data ((block.text "mime_type").getD (default_media kind)) none (some metadata))
    else (generated,.ok [])

def blocks (config : Config) (metadata : ProviderMetadata) :
    Nat → List JsonValue → Nat × Except ProviderError (List Content)
  | generated,[] => (generated,.ok [])
  | generated,item :: rest =>
    match block config generated item metadata with
    | (generated,.error error) => (generated,.error error)
    | (generated,.ok first) =>
      let (generated,others) := blocks config metadata generated rest
      (generated,others.map (first ++ ·))

def isBuiltinCall (kind : String) : Bool :=
  kind ∈ ["google_search_call","code_execution_call","url_context_call","file_search_call","google_maps_call",
    "mcp_server_tool_call"]

def isResult (kind : String) : Bool :=
  kind ∈ ["google_search_result","code_execution_result","url_context_result","file_search_result",
    "google_maps_result","mcp_server_tool_result"]

/-- `trim_end_matches`: the suffix is removed as often as it is there. -/
def trim_end_matches (suffix : List Char) : Nat → List Char → List Char
  | 0,text => text
  | fuel + 1,text =>
    if suffix.isSuffixOf text then trim_end_matches suffix fuel (text.take (text.length - suffix.length)) else text

def wire_name (step : JsonValue) (kind suffix : String) : String :=
  if kind = "function_call" ∨ kind = "mcp_server_tool" ++ suffix then (step.text "name").getD "mcp_server_tool"
  else String.ofList (trim_end_matches suffix.toList kind.length kind.toList)

def alias_ (aliases : List (String × String)) (name : String) : String := (aliases.lookup name).getD name

def id_or_generated (config : Config) (generated : Nat) (id : Option String) : Nat × String :=
  match id with
  | some id => (generated,id)
  | none => (generated + 1,config.generate_id generated)

def function_call_error (step : JsonValue) : Option ProviderError :=
  if nonempty (step.text "id") = none ∨ nonempty (step.text "name") = none then
    some (bad_response "interactions function call requires id and name")
  else
    match step.get "arguments" with
    | none | some .null | some (.object _) => none
    | some _ => some (bad_response "interactions function arguments must be an object")

def call_arguments (step : JsonValue) : JsonValue :=
  match step.get "arguments" with
  | none | some .null => .object []
  | some arguments => arguments

def call (config : Config) (generated : Nat) (step : JsonValue) (kind : String) (aliases : List (String × String))
    (metadata : ProviderMetadata) : Nat × ToolCall :=
  let (generated,id) := id_or_generated config generated (step.text "id")
  (generated,
    { tool_call_id := id
      tool_name := alias_ aliases (wire_name step kind "_call")
      input := to_string config.toConfig (call_arguments step)
      provider_executed := kind ≠ "function_call"
      dynamic := kind = "mcp_server_tool_call"
      provider_metadata := some metadata })

def result (config : Config) (generated : Nat) (step : JsonValue) (kind : String) (aliases : List (String × String))
    (metadata : ProviderMetadata) : Nat × ProviderToolResult :=
  let (generated,id) := id_or_generated config generated (step.text "call_id")
  (generated,
    { tool_call_id := id
      tool_name := alias_ aliases (wire_name step kind "_result")
      result := step.index "result"
      is_error := step.index "is_error" = .bool true
      preliminary := false
      dynamic := kind = "mcp_server_tool_result"
      provider_metadata := some metadata })

def summary (step : JsonValue) : List String := (step.items "summary").filterMap (·.text "text")

def step (config : Config) (generated : Nat) (step : JsonValue) (interaction_id : Option String)
    (aliases : List (String × String)) : Nat × Except ProviderError (List Content) :=
  let metadata := part_metadata config step interaction_id
  let kind := (step.text "type").getD ""
  if kind = "model_output" then blocks config metadata generated (step.items "content")
  else if kind = "thought" then
    (generated,.ok [.Reasoning ("\n".intercalate (summary step)) (some metadata)])
  else if kind = "processing_call" ∨ kind = "processing_result" then
    (generated,.ok [.Custom ("google." ++ kind) (some metadata)])
  else if kind = "function_call" ∨ isBuiltinCall kind then
    match if kind = "function_call" then function_call_error step else none with
    | some error => (generated,.error error)
    | none =>
      let (generated,call) := call config generated step kind aliases metadata
      (generated,.ok [.ToolCall call])
  else if isResult kind then
    let (generated,result) := result config generated step kind aliases metadata
    let (generated,sources) := extract config generated step
    (generated,.ok (.ToolResult result :: sources))
  else (generated,.ok [])

def steps_content (config : Config) (interaction_id : Option String) (aliases : List (String × String)) :
    Nat → List JsonValue → Nat × Except ProviderError (List Content)
  | generated,[] => (generated,.ok [])
  | generated,item :: rest =>
    match step config generated item interaction_id aliases with
    | (generated,.error error) => (generated,.error error)
    | (generated,.ok first) =>
      let (generated,others) := steps_content config interaction_id aliases generated rest
      (generated,others.map (first ++ ·))

structure GenerateResult where
  content : List Content
  finish_reason : FinishReason
  usage : Usage
  provider_metadata : ProviderMetadata
  response_id : Option String
  model_id : Option String

def isFunction : Content → Bool
  | .ToolCall call => !call.provider_executed
  | _ => false

def convert (config : Config) (generated : Nat) (value : JsonValue) (aliases : List (String × String)) :
    Nat × Except ProviderError GenerateResult :=
  match value.text "status" with
  | none => (generated,.error (bad_response "interactions response omitted status"))
  | some status =>
    let (generated,content) := steps_content config (value.text "id") aliases generated (value.items "steps")
    (generated,content.map fun content =>
      { content
        finish_reason := finish status (content.any isFunction)
        usage := usage (value.index "usage")
        provider_metadata := response_metadata config value
        response_id := nonempty (value.text "id")
        model_id := value.text "model" })

end Google.Interactions

end Ferrin
