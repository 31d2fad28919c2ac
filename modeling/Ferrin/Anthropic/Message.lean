import Ferrin.Library.Assoc
import Ferrin.LanguageModel

/-!
Messages of the Anthropic API: the wire types, and their mapping to content,
finish reasons, usage, metadata and errors.
-/
namespace Ferrin.Anthropic
open Ferrin.Assoc
open JsonValue (as_array as_str as_u64)

/-! ### Wire types -/

structure OutputTokensDetails where
  thinking_tokens : Option Nat
  deriving DecidableEq

structure UsageIteration where
  kind : String
  model : Option String
  input_tokens : Option Nat
  output_tokens : Option Nat
  cache_creation_input_tokens : Option Nat
  cache_read_input_tokens : Option Nat
  deriving DecidableEq

structure AnthropicUsage where
  input_tokens : Option Nat
  output_tokens : Option Nat
  output_tokens_details : Option OutputTokensDetails
  cache_creation_input_tokens : Option Nat
  cache_read_input_tokens : Option Nat
  iterations : Option (List UsageIteration)
  deriving DecidableEq

def AnthropicUsage.default : AnthropicUsage := ⟨none,none,none,none,none,none⟩

structure StopDetails where
  kind : String
  category : Option String
  explanation : Option String
  recommended_model : Option String
  deriving DecidableEq

structure ContainerSkillInfo where
  kind : String
  skill_id : String
  version : Option String
  deriving DecidableEq

structure ContainerInfo where
  id : String
  expires_at : Option String
  skills : Option (List ContainerSkillInfo)
  deriving DecidableEq

structure AppliedEdit where
  kind : String
  cleared_tool_uses : Option Nat
  cleared_thinking_turns : Option Nat
  cleared_input_tokens : Option Nat
  deriving DecidableEq

structure ResponseContextManagement where
  applied_edits : List AppliedEdit
  deriving DecidableEq

structure Caller where
  kind : String
  tool_id : Option String
  deriving DecidableEq

/-- A content block of a message or of a `content_block_start` event. -/
inductive ContentBlock where
  | Text (text : String) (citations : Option (List JsonValue))
  | Thinking (thinking : String) (signature : Option String)
  | RedactedThinking (data : String)
  | ToolUse (id name : String) (input : Option JsonValue) (caller : Option Caller)
  | ServerToolUse (id name : String) (input : Option JsonValue) (caller : Option Caller)
  | McpToolUse (id name : String) (input : Option JsonValue) (server_name : String)
  | McpToolResult (tool_use_id : String) (is_error : Bool) (content : JsonValue)
  | WebFetchToolResult (tool_use_id : String) (content : JsonValue) (caller : Option Caller)
  | WebSearchToolResult (tool_use_id : String) (content : JsonValue) (caller : Option Caller)
  | CodeExecutionToolResult (tool_use_id : String) (content : JsonValue)
  | BashCodeExecutionToolResult (tool_use_id : String) (content : JsonValue)
  | TextEditorCodeExecutionToolResult (tool_use_id : String) (content : JsonValue)
  | ToolSearchToolResult (tool_use_id : String) (content : JsonValue)
  | AdvisorToolResult (tool_use_id : String) (content : JsonValue)
  | ContainerUpload (file_id : String)
  | Compaction (content : Option String)
  | Fallback (model : Option String)
  | Unknown
  deriving DecidableEq

/-- The message summary of `message_start`. -/
structure MessageStart where
  id : Option String
  model : Option String
  usage : AnthropicUsage
  content : Option (List ContentBlock)
  container : Option ContainerInfo
  stop_reason : Option String
  input_transformations : Option JsonValue
  deriving DecidableEq

/-- The payload of a `content_block_delta`. -/
inductive Delta where
  | InputJson (partial_json : String)
  | Text (text : String)
  | Thinking (thinking : String)
  | Signature (signature : String)
  | Compaction (content : Option String)
  | Citations (citation : JsonValue)
  | Unknown
  deriving DecidableEq

structure MessageDeltaBody where
  stop_reason : Option String
  stop_sequence : Option String
  stop_details : Option StopDetails
  container : Option ContainerInfo
  deriving DecidableEq

/-- A stream event. -/
inductive AnthropicChunk where
  | MessageStart (message : MessageStart)
  | ContentBlockStart (index : Nat) (content_block : ContentBlock)
  | ContentBlockDelta (index : Nat) (delta : Delta)
  | ContentBlockStop (index : Nat)
  | Error (error : JsonObject)
  | MessageDelta (delta : MessageDeltaBody) (usage : AnthropicUsage) (input_transformations : Option JsonValue)
      (context_management : Option ResponseContextManagement)
  | MessageStop
  | Ping
  | Unknown
  deriving DecidableEq

def CANONICAL_OPTIONS_KEY : String := "anthropic"

def anthropic_metadata (value : JsonObject) : ProviderMetadata := [(CANONICAL_OPTIONS_KEY,value)]

def optional (text : Option String) : JsonValue := (text.map .string).getD .null

def count (n : Nat) : JsonValue := .number (.PosInt n.toUInt64)

def member (value : JsonValue) (key : String) : JsonValue := (value.get key).getD .null

/-- The members that are there. -/
def given (key : String) (text : Option String) : JsonObject := (text.map fun text => (key,.string text)).toList

def caller_metadata (caller : Option Caller) : Option ProviderMetadata :=
  caller.map fun caller =>
    anthropic_metadata [("caller",.object (("type",.string caller.kind) :: given "toolId" caller.tool_id))]

def container_metadata (container : ContainerInfo) (include_skills : Bool) : JsonValue :=
  let skills := if include_skills then container.skills else none
  .object [
    ("expiresAt",optional container.expires_at),
    ("id",.string container.id),
    ("skills",match skills with
      | some skills => .array (skills.map fun skill => .object [
          ("type",.string skill.kind),
          ("skillId",.string skill.skill_id),
          ("version",optional skill.version)])
      | none => .null)]

def applied_edit (edit : AppliedEdit) : Option JsonValue :=
  let counted (n : Option Nat) : JsonValue := (n.map count).getD .null
  match edit.kind with
  | "clear_tool_uses_20250919" => some (.object [
      ("type",.string edit.kind),
      ("clearedToolUses",counted edit.cleared_tool_uses),
      ("clearedInputTokens",counted edit.cleared_input_tokens)])
  | "clear_thinking_20251015" => some (.object [
      ("type",.string edit.kind),
      ("clearedThinkingTurns",counted edit.cleared_thinking_turns),
      ("clearedInputTokens",counted edit.cleared_input_tokens)])
  | "compact_20260112" => some (.object [("type",.string edit.kind)])
  | _ => none

def context_management_metadata (context : ResponseContextManagement) : JsonValue :=
  .object [("appliedEdits",.array (context.applied_edits.filterMap applied_edit))]

def stop_details_metadata (details : StopDetails) : JsonValue :=
  .object (("type",.string details.kind) :: given "category" details.category ++
    given "explanation" details.explanation ++ given "recommendedModel" details.recommended_model)

def iteration_metadata (iteration : UsageIteration) : JsonValue :=
  let positive (key : String) (n : Option Nat) : JsonObject := ((n.filter (0 < ·)).map fun n => (key,count n)).toList
  .object (("type",.string iteration.kind) :: given "model" iteration.model ++
    [("inputTokens",count (iteration.input_tokens.getD 0)),("outputTokens",count (iteration.output_tokens.getD 0))] ++
    positive "cacheCreationInputTokens" iteration.cache_creation_input_tokens ++
    positive "cacheReadInputTokens" iteration.cache_read_input_tokens)

structure MessageMetadata where
  usage : Option JsonObject
  stop_sequence : Option String
  stop_details : Option StopDetails
  input_transformations : Option JsonValue
  iterations : Option (List UsageIteration)
  container : Option JsonValue
  context_management : Option ResponseContextManagement

def MessageMetadata.build (m : MessageMetadata) (custom_key : Option String) : ProviderMetadata :=
  let value : JsonObject :=
    [("usage",(m.usage.map .object).getD .null),("stopSequence",optional m.stop_sequence)] ++
    (m.stop_details.map fun details => ("stopDetails",stop_details_metadata details)).toList ++
    (m.input_transformations.map fun transformations => ("inputTransformations",transformations)).toList ++
    [("iterations",match m.iterations with
        | some iterations => .array (iterations.map iteration_metadata)
        | none => .null),
      ("container",m.container.getD .null),
      ("contextManagement",(m.context_management.map context_management_metadata).getD .null)]
  anthropic_metadata value ++ ((custom_key.filter (· ≠ CANONICAL_OPTIONS_KEY)).map fun key => (key,value)).toList

def map_stop_reason (stop_reason : Option String) (json_response_from_tool : Bool) : FinishReason where
  unified := match stop_reason with
    | some "pause_turn" | some "end_turn" | some "stop_sequence" => .Stop
    | some "refusal" => .ContentFilter
    | some "tool_use" => if json_response_from_tool then .Stop else .ToolCalls
    | some "max_tokens" | some "model_context_window_exceeded" => .Length
    | _ => .Other
  raw := stop_reason

/-- Sums of 64-bit counters wrap. -/
def counter (n : Nat) : Nat := n % 2 ^ 64

/-- The iterations of `compaction` and `message` replace the counters, unless a fallback model served. -/
def executor (usage : AnthropicUsage) : List UsageIteration :=
  let iterations := usage.iterations.getD []
  if iterations.any (·.kind = "fallback_message") then []
  else iterations.filter fun iteration => iteration.kind = "compaction" || iteration.kind = "message"

def convert_usage (usage : AnthropicUsage) (raw : Option JsonObject) : Usage :=
  let cache_write := usage.cache_creation_input_tokens.getD 0
  let cache_read := usage.cache_read_input_tokens.getD 0
  let reasoning := usage.output_tokens_details.bind (·.thinking_tokens)
  let (input,output) := match executor usage with
    | [] => (usage.input_tokens.getD 0,usage.output_tokens.getD 0)
    | iterations => (counter (iterations.map (·.input_tokens.getD 0)).sum,
        counter (iterations.map (·.output_tokens.getD 0)).sum)
  { input := ⟨some (counter (input + cache_write + cache_read)),some input,some cache_read,some cache_write⟩
    output := ⟨some output,reasoning.map fun reasoning => output - reasoning,reasoning⟩
    raw := raw }

/-- The HTTP status and whether a retry may succeed. -/
def status_for_error_type : Option String → Nat × Bool
  | some "api_error" => (500,true)
  | some "overloaded_error" => (529,true)
  | some "rate_limit_error" => (429,true)
  | some "request_too_large" => (413,false)
  | some "authentication_error" => (401,false)
  | some "permission_error" => (403,false)
  | some "not_found_error" => (404,false)
  | some "billing_error" | some "invalid_request_error" => (400,false)
  | _ => (500,false)

/-- `FrameError::from_error_object` and `to_stream_error`. -/
def frame_error (frame : JsonValue) : StreamError :=
  let error_type := (frame.get "type").bind as_str
  { message := ((frame.get "message").bind as_str).getD "Anthropic stream error"
    error_type := error_type
    code := none
    status_code := some (status_for_error_type error_type).1
    is_retryable := some (status_for_error_type error_type).2
    data := some frame }

/-! ### Output -/

structure CitationDocument where
  title : String
  filename : Option String
  media_type : String

/-- `serde_json` and the id generator, which yields its n-th id for `n`. -/
structure Config where
  to_string : JsonValue → String
  from_str : String → Option JsonValue
  generate_id : Nat → String

/-- Maps the blocks of one message. `generated` counts the ids taken from the generator. -/
structure OutputMapper where
  to_custom : List (String × String)
  uses_json_response_tool : Bool
  mark_code_execution_dynamic : Bool
  citation_documents : List CitationDocument
  json_response_from_tool : Bool
  mcp_tool_calls : List (String × ToolName × Option ProviderMetadata)
  tool_search_calls : List (String × String)
  generated : Nat

/-- Adds `type` to a code execution input that carries `code` but no type. -/
def programmatic_tool_call (input : JsonValue) : JsonValue :=
  match input with
  | .object entries =>
    if (entries.lookup "code").isSome ∧ (entries.lookup "type").isNone then
      .object (JsonObject.extend [("type",.string "programmatic-tool-call")] entries)
    else input
  | _ => input

def web_search_result (entry : JsonValue) : JsonValue :=
  .object ([("url",member entry "url")] ++
    (((entry.get "title").filter (· ≠ .null)).map fun title => ("title",title)).toList ++
    [("pageAge",member entry "page_age"),("encryptedContent",member entry "encrypted_content"),
      ("type",member entry "type")])

def provider_result (id : String) (name : ToolName) (result : JsonValue) : ProviderToolResult :=
  ⟨id,name,result,false,false,false,none⟩

def error_result (id : String) (name : ToolName) (kind : String) (content : JsonValue) : ProviderToolResult :=
  { provider_result id name (.object [("type",.string kind),("errorCode",member content "error_code")]) with
    is_error := true }

namespace OutputMapper

def custom_name (m : OutputMapper) (provider_tool_name : String) : ToolName :=
  (m.to_custom.lookup provider_tool_name).getD provider_tool_name

def is_dynamic (m : OutputMapper) (provider_tool_name : String) : Bool :=
  m.mark_code_execution_dynamic && provider_tool_name = "code_execution"

def remember_tool_search (m : OutputMapper) (id provider_tool_name : String) : OutputMapper :=
  { m with tool_search_calls := put m.tool_search_calls id provider_tool_name }

def web_citation (m : OutputMapper) (config : Config) (citation : JsonValue) : OutputMapper × Option Source :=
  -- The id is taken before the missing url ends the conversion.
  ({ m with generated := m.generated + 1 },do
    let url ← (citation.get "url").bind as_str
    return .Url (config.generate_id m.generated) url ((citation.get "title").bind as_str)
      (some (anthropic_metadata [("citedText",member citation "cited_text"),
        ("encryptedIndex",member citation "encrypted_index")])))

def document_citation (m : OutputMapper) (config : Config) (citation : JsonValue) (keys : List (String × String)) :
    OutputMapper × Option Source :=
  match ((citation.get "document_index").bind as_u64).bind (m.citation_documents[·]?) with
  | none => (m,none)
  | some document =>
    let metadata := ("citedText",member citation "cited_text") :: keys.map fun (target,source) =>
      (target,member citation source)
    ({ m with generated := m.generated + 1 },some (.Document (config.generate_id m.generated) document.media_type
      (((citation.get "document_title").bind as_str).getD document.title) document.filename
      (some (anthropic_metadata metadata))))

def citation_source (m : OutputMapper) (config : Config) (citation : JsonValue) : OutputMapper × Option Source :=
  match (citation.get "type").bind as_str with
  | some "web_search_result_location" => m.web_citation config citation
  | some "page_location" => m.document_citation config citation
      [("startPageNumber","start_page_number"),("endPageNumber","end_page_number")]
  | some "char_location" => m.document_citation config citation
      [("startCharIndex","start_char_index"),("endCharIndex","end_char_index")]
  | _ => (m,none)

/-- Maps an `mcp_tool_use` block and remembers its name for the result. -/
def mcp_tool_use (m : OutputMapper) (config : Config) (id name : String) (input : Option JsonValue)
    (server_name : String) : OutputMapper × ToolCall :=
  let metadata := some (anthropic_metadata [("type",.string "mcp-tool-use"),("serverName",.string server_name)])
  ({ m with mcp_tool_calls := put m.mcp_tool_calls id (name,metadata) },
    ⟨id,name,config.to_string (input.getD (.object [])),true,true,metadata⟩)

def web_fetch_result (m : OutputMapper) (tool_use_id : String) (content : JsonValue) :
    OutputMapper × ProviderToolResult :=
  let page := member content "content"
  let source := member page "source"
  let url := member content "url"
  let document : CitationDocument := {
    title := (((page.get "title").bind as_str) <|> url.as_str).getD ""
    filename := none
    media_type := ((source.get "media_type").bind as_str).getD "" }
  ({ m with citation_documents := m.citation_documents ++ [document] },
    provider_result tool_use_id (m.custom_name "web_fetch") (.object [
      ("type",.string "web_fetch_result"),
      ("url",url),
      ("retrievedAt",member content "retrieved_at"),
      ("content",.object [
        ("type",member page "type"),
        ("title",member page "title"),
        ("citations",member page "citations"),
        ("source",.object [
          ("type",member source "type"),
          ("mediaType",member source "media_type"),
          ("data",member source "data")])])]))

/-- The sources of the entries that have a url, numbered from `n`. -/
def searchSources (config : Config) : Nat → List JsonValue → List Source
  | _, [] => []
  | n, entry :: rest =>
    match (entry.get "url").bind as_str with
    | none => searchSources config n rest
    | some url =>
      .Url (config.generate_id n) url ((entry.get "title").bind as_str)
        (some (anthropic_metadata [("pageAge",member entry "page_age")])) :: searchSources config (n + 1) rest

def web_search (m : OutputMapper) (config : Config) (tool_use_id : String) (content : JsonValue)
    (caller : Option Caller) : OutputMapper × List Content :=
  let name := m.custom_name "web_search"
  match content.as_array with
  | some results =>
    let sources := searchSources config m.generated results
    ({ m with generated := m.generated + sources.length },
      .ToolResult { provider_result tool_use_id name (.array (results.map web_search_result)) with
        provider_metadata := caller_metadata caller } :: sources.map .Source)
  | none => (m,[.ToolResult { error_result tool_use_id name "web_search_tool_result_error" content with
      provider_metadata := caller_metadata caller }])

/-- What a code execution result keeps, its standard output under `stdout`. -/
def code_execution_result (content : JsonValue) (kind stdout : String) : JsonValue :=
  .object [
    ("type",.string kind),
    (stdout,member content stdout),
    ("stderr",member content "stderr"),
    ("return_code",member content "return_code"),
    ("content",(content.get "content").getD (.array []))]

def advisor_result (content : JsonValue) (kind key source : String) : JsonValue :=
  .object ([("type",.string kind),(key,member content source)] ++
    (((content.get "stop_reason").filter (· ≠ .null)).map fun stop => ("stopReason",stop)).toList)

def tool_search_result (m : OutputMapper) (tool_use_id : String) (content : JsonValue) : ProviderToolResult :=
  let provider_name := (m.tool_search_calls.lookup tool_use_id).getD
    (if m.custom_name "tool_search_tool_bm25" ≠ "tool_search_tool_bm25" then "tool_search_tool_bm25"
     else "tool_search_tool_regex")
  let name := m.custom_name provider_name
  if (content.get "type").bind as_str = some "tool_search_tool_search_result" then
    let references := ((content.get "tool_references").bind as_array).getD []
    provider_result tool_use_id name (.array (references.map fun reference =>
      .object [("type",member reference "type"),("toolName",member reference "tool_name")]))
  else error_result tool_use_id name "tool_search_tool_result_error" content

def map_result_block (m : OutputMapper) (config : Config) (block : ContentBlock) : OutputMapper × Option (List Content) :=
  match block with
  | .McpToolResult tool_use_id is_error content =>
    let (name,metadata) := (m.mcp_tool_calls.lookup tool_use_id).getD ("mcp",none)
    (m,some [.ToolResult { provider_result tool_use_id name content with
      is_error := is_error,dynamic := true,provider_metadata := metadata }])
  | .WebFetchToolResult tool_use_id content caller =>
    match (content.get "type").bind as_str with
    | some "web_fetch_result" =>
      let (m,result) := m.web_fetch_result tool_use_id content
      (m,some [.ToolResult { result with provider_metadata := caller_metadata caller }])
    | some "web_fetch_tool_result_error" =>
      (m,some [.ToolResult { error_result tool_use_id (m.custom_name "web_fetch") "web_fetch_tool_result_error" content
        with provider_metadata := caller_metadata caller }])
    | _ => (m,some [])
  | .WebSearchToolResult tool_use_id content caller =>
    let (m,contents) := m.web_search config tool_use_id content caller
    (m,some contents)
  | .CodeExecutionToolResult tool_use_id content =>
    let name := m.custom_name "code_execution"
    (m,match (content.get "type").bind as_str with
      | some "code_execution_result" => some [.ToolResult (provider_result tool_use_id name
          (code_execution_result content "code_execution_result" "stdout"))]
      | some "encrypted_code_execution_result" => some [.ToolResult (provider_result tool_use_id name
          (code_execution_result content "encrypted_code_execution_result" "encrypted_stdout"))]
      | some "code_execution_tool_result_error" => some [.ToolResult
          (error_result tool_use_id name "code_execution_tool_result_error" content)]
      | _ => some [])
  | .BashCodeExecutionToolResult tool_use_id content | .TextEditorCodeExecutionToolResult tool_use_id content =>
    (m,some [.ToolResult (provider_result tool_use_id (m.custom_name "code_execution") content)])
  | .ToolSearchToolResult tool_use_id content => (m,some [.ToolResult (m.tool_search_result tool_use_id content)])
  | .AdvisorToolResult tool_use_id content =>
    let name := m.custom_name "advisor"
    (m,some [.ToolResult (match (content.get "type").bind as_str with
      | some "advisor_result" =>
        provider_result tool_use_id name (advisor_result content "advisor_result" "text" "text")
      | some "advisor_redacted_result" => provider_result tool_use_id name
          (advisor_result content "advisor_redacted_result" "encryptedContent" "encrypted_content")
      | _ => error_result tool_use_id name "advisor_tool_result_error" content)])
  | _ => (m,none)

end OutputMapper

theorem map_result_block_alike (config : Config) (m : OutputMapper) (block : ContentBlock) :
    (m.map_result_block config block).1.uses_json_response_tool = m.uses_json_response_tool ∧
      (m.map_result_block config block).1.json_response_from_tool = m.json_response_from_tool := by
  cases block with
  | WebFetchToolResult =>
    unfold OutputMapper.map_result_block
    dsimp only
    split <;> exact ⟨rfl,rfl⟩
  | WebSearchToolResult _ content =>
    unfold OutputMapper.map_result_block OutputMapper.web_search
    dsimp only
    cases content.as_array <;> exact ⟨rfl,rfl⟩
  | _ => exact ⟨rfl,rfl⟩

theorem citation_source_alike (config : Config) (m : OutputMapper) (citation : JsonValue) :
    (m.citation_source config citation).1.uses_json_response_tool = m.uses_json_response_tool ∧
      (m.citation_source config citation).1.json_response_from_tool = m.json_response_from_tool := by
  unfold OutputMapper.citation_source
  split
  · exact ⟨rfl,rfl⟩
  all_goals
    try unfold OutputMapper.document_citation
    try split
    all_goals exact ⟨rfl,rfl⟩

end Ferrin.Anthropic
