import Ferrin.Json.Object
import Ferrin.OpenAi.Responses.Types
import Ferrin.ToolNameMapping

/-!
The mapping of output items to content. It is shared by complete and streamed
responses and keeps track of the calls that the client has to execute.
-/
namespace Ferrin.OpenAi.Responses
open ToolNames (ToolNameMapping)
open JsonObject (get insert)
open JsonValue (as_array as_str)
open ToolCall (new)

def map_finish_reason (reason : Option String) (has_function_call : Bool) : FinishReason where
  unified := match reason with
    | none => if has_function_call then .ToolCalls else .Stop
    | some "max_output_tokens" => .Length
    | some "content_filter" => .ContentFilter
    | some _ => if has_function_call then .ToolCalls else .Other
  raw := reason

/-- Members whose value is there, after those that always are. -/
def with_present (entries : JsonObject) (optional : List (String × Option JsonValue)) : JsonObject :=
  optional.foldl (fun object entry => object.insert_some entry.1 (present entry.2)) entries

def map_web_search_output (action : Option JsonValue) : JsonValue :=
  match present action with
  | none => .object []
  | some action =>
    match (action.get "type").bind as_str with
    | some "search" =>
      let search := with_present [("type",.string "search")] [("query",action.get "query"),("queries",action.get "queries")]
      .object (with_present [("action",.object search)] [("sources",action.get "sources")])
    | some "open_page" => .object [("action",.object [("type",.string "openPage"),("url",or_null (action.get "url"))])]
    | some "find_in_page" => .object [("action",.object [("type",.string "findInPage"),
        ("url",or_null (action.get "url")),("pattern",or_null (action.get "pattern"))])]
    | _ => .object []

def map_file_search_output (item : OutputItem) : JsonValue :=
  let results := ((item.get "results").bind as_array).map fun results => .array (results.map fun result =>
    .object [("attributes",or_null (result.get "attributes")),("fileId",or_null (result.get "file_id")),
      ("filename",or_null (result.get "filename")),("score",or_null (result.get "score")),("text",or_null (result.get "text"))])
  .object [("queries",(item.get "queries").getD (.array [])),("results",or_null results)]

/-- Maps output items to content. `generated` counts the ids taken from the generator. -/
structure OutputMapper where
  tool_name_mapping : ToolNameMapping
  web_search_tool_name : Option String
  approval_tool_call_ids : List (String × String)
  has_function_call : Bool
  logprobs : List JsonValue
  function_names : List String
  hosted_shell : Bool
  hosted_search_ids : List String
  generated : Nat

def provider_call (id name input : String) : ToolCall := { new id name input with provider_executed := true }

def provider_result (id name : String) (result : JsonValue) : ProviderToolResult :=
  ⟨id,name,result,false,false,false,none⟩

def value_text (value : Option JsonValue) : Option String := value.bind as_str

def annotation_source (env : Environment) (generated : Nat) ( annotation : JsonValue) : Nat × Option Source :=
  let text (field : String) := value_text ( annotation.get field)
  let id := env.generate_id generated
  let document (kind file_id filename : String) (media_type : MediaType) (field key : String) : Source :=
    .Document id media_type filename (some filename) (some (metadata env.provider_options_key
      (JsonObject.insert_some [("type",.string kind),("fileId",.string file_id)] key ( annotation.get field))))
  match value_text ( annotation.get "type") with
  | some "url_citation" => (generated + 1,(text "url").map fun url => .Url id url (text "title") none)
  | some "file_citation" =>
    match text "file_id" with
    | none => (generated,none)
    | some file_id =>
      (generated + 1,some (document "file_citation" file_id ((text "filename").getD file_id) "text/plain" "index" "index"))
  | some "container_file_citation" =>
    match text "file_id" with
    | none => (generated,none)
    | some file_id => (generated + 1,some (document "container_file_citation" file_id ((text "filename").getD file_id)
        "text/plain" "container_id" "containerId"))
  | some "file_path" =>
    match text "file_id" with
    | none => (generated,none)
    | some file_id => (generated + 1,some (document "file_path" file_id file_id "application/octet-stream" "index" "index"))
  | _ => (generated,none)

/-! ### Parallel calls -/

def parallel_child (env : Environment) (item : OutputItem) (functions : List String) (input : String) (count : Nat)
    (child : JsonValue) (index : Nat) : Option ToolCall := do
  let recipient ← value_text (child.get "recipient_name")
  let name ← (recipient.toList.dropPrefix? "functions.".toList).map String.ofList
  if functions.contains name then
    let parameters ← (← child.get "parameters").as_object
    let call_id ← item.get_str "call_id"
    let identity : JsonObject := [("itemId",.string item.id_str),("toolCallId",.string call_id),
      ("toolName",.string "parallel"),("input",.string input),("index",.number (.PosInt index.toUInt64)),
      ("count",.number (.PosInt count.toUInt64))]
    return { new s!"{call_id}_{index}" name (env.json_text (.object parameters)) with
      provider_metadata := some (metadata env.provider_options_key [("parallelToolCall",.object identity)]) }
  else none

def expand (env : Environment) (item : OutputItem) (functions : List String) : Option (List ToolCall) :=
  if item.get_str "name" ≠ some "parallel" ∨ functions.contains "parallel" then none
  else do
    let input ← item.get_str "arguments"
    let uses ← (← (← env.from_str input).get "tool_uses").as_array
    if uses = [] then none
    else (uses.zipIdx).mapM fun child => parallel_child env item functions input uses.length child.1 child.2

namespace OutputMapper

def custom_name (m : OutputMapper) (provider_name : String) : String :=
  m.tool_name_mapping.to_custom_tool_name provider_name

def item_metadata (env : Environment) (item : OutputItem) : ProviderMetadata :=
  metadata env.provider_options_key [("itemId",or_null (item.id.map .string))]

def web_search_name (m : OutputMapper) : String := m.custom_name (m.web_search_tool_name.getD "web_search")

def reasoning_parts (env : Environment) (item : OutputItem) : List Content :=
  let info := some (metadata env.provider_options_key [("itemId",or_null (item.id.map .string)),
    ("reasoningEncryptedContent",or_null (item.get "encrypted_content"))])
  let summaries := (((item.get "summary").bind as_array).getD []).filterMap fun s => value_text (s.get "text")
  if summaries = [] then [.Reasoning "" info] else summaries.map (.Reasoning · info)

def annotation_sources (env : Environment) : Nat → List JsonValue → Nat × List Source
  | generated,[] => (generated,[])
  | generated, annotation :: rest =>
    let (generated,source) := annotation_source env generated annotation
    let (generated,others) := annotation_sources env generated rest
    (generated,source.toList ++ others)

def message_part (env : Environment) (m : OutputMapper) (item : OutputItem) (collect_logprobs : Bool) (part : JsonValue) :
    OutputMapper × List Content :=
  if value_text (part.get "type") ≠ some "output_text" then (m,[])
  else
    let logprobs := if collect_logprobs then (part.get "logprobs").toList else []
    let annotations := ((part.get "annotations").bind as_array).getD []
    let info := with_present [("itemId",or_null (item.id.map .string))] [("phase",item.get "phase")]
    let info := if annotations = [] then info else info.insert "annotations" (.array annotations)
    let (generated,sources) := annotation_sources env m.generated annotations
    ({ m with logprobs := m.logprobs ++ logprobs,generated },
      .Text ((value_text (part.get "text")).getD "") (some (metadata env.provider_options_key info)) :: sources.map .Source)

def message_parts_of (env : Environment) (item : OutputItem) (collect_logprobs : Bool) :
    OutputMapper → List JsonValue → OutputMapper × List Content
  | m,[] => (m,[])
  | m,part :: rest =>
    let (m,parts) := message_part env m item collect_logprobs part
    let (m,others) := message_parts_of env item collect_logprobs m rest
    (m,parts ++ others)

def message_parts (env : Environment) (m : OutputMapper) (item : OutputItem) (collect_logprobs : Bool) :
    OutputMapper × List Content :=
  message_parts_of env item collect_logprobs m (((item.get "content").bind as_array).getD [])

def advanced_result (env : Environment) (m : OutputMapper) (item : OutputItem) (id name : String)
    (result : JsonValue) : Content :=
  .ToolResult { provider_result id (m.custom_name name) result with provider_metadata := some (item_metadata env item) }

def advanced_call (env : Environment) (m : OutputMapper) (item : OutputItem) (id name : String) (value : JsonValue)
    (executed : Bool) : Content :=
  .ToolCall { new id (m.custom_name name) (env.json_text value) with
    provider_executed := executed,provider_metadata := some (item_metadata env item) }

/-- `exit_code` of an outcome in the case of the other fields. -/
def camel_exit_code (entry : JsonValue) : JsonValue :=
  match entry with
  | .object fields =>
    match (get fields "outcome").bind JsonValue.as_object with
    | some outcome =>
      match get outcome "exit_code" with
      | some code => .object (insert fields "outcome"
          (.object (insert (JsonObject.swap_remove outcome "exit_code") "exitCode" code)))
      | none => entry
    | none => entry
  | _ => entry

def shell_output (output : JsonValue) : JsonValue :=
  match output with
  | .array entries => .array (entries.map camel_exit_code)
  | _ => output

def advanced_item (env : Environment) (m : OutputMapper) (item : OutputItem) : OutputMapper × List Content :=
  let id := (item.get_str "call_id").getD item.id_str
  match item.item_kind with
  | .Program => (m,[advanced_call env m item id "programmatic_tool_calling"
      (.object [("code",or_null (item.get "code")),("fingerprint",or_null (item.get "fingerprint"))]) true])
  | .ToolSearchCall =>
    let hosted := item.get_str "execution" = some "server"
    ({ m with
        hosted_search_ids := if hosted then m.hosted_search_ids ++ [id] else m.hosted_search_ids
        has_function_call := m.has_function_call || !hosted },
      [advanced_call env m item id "tool_search"
        (.object [("arguments",or_null (item.get "arguments")),("call_id",or_null (item.get "call_id"))]) hosted])
  | .ProgramOutput => (m,[advanced_result env m item id "programmatic_tool_calling"
      (.object [("result",or_null (item.get "result")),("status",or_null (item.status.map .string))])])
  | .ToolSearchOutput =>
    let tools : JsonValue := .object [("tools",or_null (item.get "tools"))]
    match item.get_str "call_id",m.hosted_search_ids with
    | some id,_ => (m,[advanced_result env m item id "tool_search" tools])
    | none,id :: rest => ({ m with hosted_search_ids := rest },[advanced_result env m item id "tool_search" tools])
    | none,[] => (m,[advanced_result env m item item.id_str "tool_search" tools])
  | .ShellCallOutput => (m,[advanced_result env m item id "shell"
      (.object [("output",shell_output ((item.get "output").getD (.array [])))])])
  | _ => (m,[])

def mapped_caller (caller : JsonValue) : JsonValue :=
  if value_text (caller.get "type") = some "program" then
    .object [("type",.string "program"),("callerId",or_null (caller.get "caller_id"))]
  else caller

def function_call (env : Environment) (m : OutputMapper) (item : OutputItem) : OutputMapper × List Content :=
  let m := { m with has_function_call := true }
  match expand env item m.function_names with
  | some calls => (m,calls.map .ToolCall)
  | none =>
    let info := with_present [("itemId",.string item.id_str)] [("async",item.get "async"),("namespace",item.get "namespace"),
      ("caller",(present (item.get "caller")).map mapped_caller)]
    (m,[.ToolCall { new ((item.get_str "call_id").getD "") (m.custom_name ((item.get_str "name").getD ""))
      ((item.get_str "arguments").getD "\x7b\x7d") with
      provider_metadata := some (metadata env.provider_options_key info) }])

def custom_tool_call (env : Environment) (m : OutputMapper) (item : OutputItem) : OutputMapper × List Content :=
  let info := with_present [("itemId",.string item.id_str)] [("async",item.get "async")]
  ({ m with has_function_call := true },
    [.ToolCall { new ((item.get_str "call_id").getD "") (m.custom_name ((item.get_str "name").getD ""))
      (env.json_text (or_null (item.get "input"))) with
      provider_metadata := some (metadata env.provider_options_key info) }])

def executed (id name input : String) (result : JsonValue) : List Content :=
  [.ToolCall (provider_call id name input),.ToolResult (provider_result id name result)]

def mcp_call (env : Environment) (m : OutputMapper) (item : OutputItem) : List Content :=
  let tool_call_id := ((item.get_str "approval_request_id").bind (m.approval_tool_call_ids.lookup ·)).getD item.id_str
  let name := "mcp." ++ (item.get_str "name").getD ""
  let result := with_present [("type",.string "call"),("serverLabel",or_null (item.get "server_label")),
    ("name",or_null (item.get "name")),("arguments",or_null (item.get "arguments"))]
    [("output",item.get "output"),("error",item.get "error")]
  [.ToolCall { provider_call tool_call_id name ((item.get_str "arguments").getD "\x7b\x7d") with dynamic := true },
    .ToolResult { provider_result tool_call_id name (.object result) with
      dynamic := true,provider_metadata := some (item_metadata env item) }]

def mcp_approval_request (env : Environment) (m : OutputMapper) (item : OutputItem) : OutputMapper × List Content :=
  let approval_id := (item.get_str "approval_request_id").getD item.id_str
  let dummy := env.generate_id m.generated
  let name := "mcp." ++ (item.get_str "name").getD ""
  ({ m with generated := m.generated + 1 },
    [.ToolCall { provider_call dummy name ((item.get_str "arguments").getD "\x7b\x7d") with dynamic := true },
      .ToolApprovalRequest approval_id dummy none])

def client_call (env : Environment) (m : OutputMapper) (item : OutputItem) (id name : String)
    (input : JsonValue) : Content :=
  .ToolCall { new id (m.custom_name name) (env.json_text input) with
    provider_metadata := some (item_metadata env item) }

def apply_patch_call (env : Environment) (m : OutputMapper) (item : OutputItem) : Content :=
  let call_id := (item.get_str "call_id").getD ""
  client_call env m item call_id "apply_patch" (.object [("callId",.string call_id),("operation",or_null (item.get "operation"))])

def local_shell_call (env : Environment) (m : OutputMapper) (item : OutputItem) : Content :=
  let action := or_null (item.get "action")
  client_call env m item ((item.get_str "call_id").getD "") "local_shell" (.object [("action",.object [("type",.string "exec"),
    ("command",or_null (action.get "command")),("timeoutMs",or_null (action.get "timeout_ms")),("user",or_null (action.get "user")),
    ("workingDirectory",or_null (action.get "working_directory")),("env",or_null (action.get "env"))])])

def shell_call (env : Environment) (m : OutputMapper) (item : OutputItem) : OutputMapper × List Content :=
  let action := or_null (item.get "action")
  let input : JsonValue := .object [("action",.object [("commands",or_null (action.get "commands")),
    ("timeoutMs",or_null (action.get "timeout_ms")),("maxOutputLength",or_null (action.get "max_output_length"))])]
  ({ m with has_function_call := m.has_function_call || !m.hosted_shell },
    [.ToolCall { new ((item.get_str "call_id").getD "") (m.custom_name "shell") (env.json_text input) with
      provider_executed := m.hosted_shell,provider_metadata := some (item_metadata env item) }])

def computer_input (item : OutputItem) : JsonValue :=
  .object [("action",or_null (item.get "action")),("pendingSafetyChecks",or_null (item.get "pending_safety_checks"))]

def code_input (code container_id : Option JsonValue) : JsonValue :=
  .object [("code",or_null code),("containerId",or_null container_id)]

def compaction (env : Environment) (item : OutputItem) : Content :=
  .Custom "openai.compaction" (some (metadata env.provider_options_key [("type",.string "compaction"),
    ("itemId",.string item.id_str),("encryptedContent",or_null (item.get "encrypted_content"))]))

def map_item (env : Environment) (m : OutputMapper) (item : OutputItem) (collect_logprobs : Bool) :
    OutputMapper × List Content :=
  let id := item.id_str
  let called := { m with has_function_call := true }
  match item.item_kind with
  | .Reasoning => (m,reasoning_parts env item)
  | .Message => m.message_parts env item collect_logprobs
  | .FunctionCall => m.function_call env item
  | .CustomToolCall => m.custom_tool_call env item
  | .WebSearchCall => (m,executed id m.web_search_name "\x7b\x7d" (map_web_search_output (item.get "action")))
  | .FileSearchCall => (m,executed id (m.custom_name "file_search") "\x7b\x7d" (map_file_search_output item))
  | .CodeInterpreterCall => (m,executed id (m.custom_name "code_interpreter")
      (env.json_text (code_input (item.get "code") (item.get "container_id"))) (.object [("outputs",or_null (item.get "outputs"))]))
  | .ImageGenerationCall => (m,executed id (m.custom_name "image_generation") "\x7b\x7d"
      (.object [("result",or_null (item.get "result"))]))
  | .McpCall => (m,m.mcp_call env item)
  | .McpApprovalRequest => m.mcp_approval_request env item
  | .ApplyPatchCall => (called,[m.apply_patch_call env item])
  | .LocalShellCall => (called,[m.local_shell_call env item])
  | .ShellCall => m.shell_call env item
  | .Program | .ProgramOutput | .ToolSearchCall | .ToolSearchOutput | .ShellCallOutput => m.advanced_item env item
  | .ComputerCall => (called,[m.client_call env item ((item.get_str "call_id").getD id) "computer" (computer_input item)])
  | .Compaction => (m,[compaction env item])
  | .Other => (m,[])

end OutputMapper

end Ferrin.OpenAi.Responses
