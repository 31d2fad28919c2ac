import Ferrin.OpenAi.Responses.Output
import Ferrin.Stream.Driver

/-!
The state machine of a streamed response. Items are opened by index; the input
of some calls is glued from fragments of JSON that several events bring.
-/
namespace Ferrin.OpenAi.Responses
open Ferrin.Stream Ferrin.Assoc
open OpenAiCompatible (timestamp_from_seconds)

def escape_json_delta (env : Environment) (delta : String) : String :=
  String.ofList ((env.json_text (.string delta)).toList.drop 1).dropLast

def content_part : Content → Option StreamPart
  | .ToolCall call => some (.ToolCall call)
  | .ToolResult result => some (.ToolResult result)
  | .ToolApprovalRequest approval_id tool_call_id info => some (.ToolApprovalRequest approval_id tool_call_id info)
  | .Source source => some (.Source source)
  | .Custom kind info => some (.Custom kind info)
  | _ => none

/-- `content_to_parts`. -/
def content_to_parts (content : List Content) : List StreamPart := content.filterMap content_part

def tool_input_start (id name : String) (provider_executed : Bool) : StreamPart :=
  .ToolInputStart id name provider_executed false none none

def whole_input (call : ToolCall) : List StreamPart :=
  [.ToolInputDelta call.tool_call_id call.input none,.ToolInputEnd call.tool_call_id none,.ToolCall call]

inductive SummaryState where
  | Active
  | CanConclude
  | Concluded
  deriving DecidableEq

structure ActiveReasoning where
  encrypted_content : JsonValue
  summaries : List (Nat × SummaryState)

/-- `BTreeMap::insert`. -/
def insert_summary (index : Nat) (state : SummaryState) : List (Nat × SummaryState) → List (Nat × SummaryState)
  | [] => [(index,state)]
  | (other,old) :: rest =>
    if index < other then (index,state) :: (other,old) :: rest
    else if index = other then (index,state) :: rest
    else (other,old) :: insert_summary index state rest

structure ApplyPatchState where
  has_diff : Bool
  end_emitted : Bool

structure OngoingToolCall where
  tool_call_id : String
  container_id : Option String
  apply_patch : Option ApplyPatchState
  is_async : Option JsonValue

def OngoingToolCall.plain (tool_call_id : String) : OngoingToolCall := ⟨tool_call_id,none,none,none⟩

structure ResponsesStreamState where
  mapper : OutputMapper
  store : Bool
  collect_logprobs : Bool
  finish_reason : FinishReason
  usage : Option ResponsesUsage
  raw_usage : Option JsonObject
  response_id : Option String
  service_tier : Option String
  reasoning_context : Option JsonValue
  ongoing_tool_calls : List (Nat × OngoingToolCall)
  ongoing_annotations : List JsonValue
  active_message_phase : Option JsonValue
  active_reasoning : List (String × ActiveReasoning)
  active_item_ids : List (Nat × String)
  approval_ids_from_stream : List (String × String)
  encountered_error : Bool
  received_terminal_response : Bool

abbrev Step := ResponsesStreamState × List StreamPart

namespace ResponsesStreamState

def new (mapper : OutputMapper) (store collect_logprobs : Bool) : ResponsesStreamState where
  mapper
  store
  collect_logprobs
  finish_reason := .new .Other
  usage := none
  raw_usage := none
  response_id := none
  service_tier := none
  reasoning_context := none
  ongoing_tool_calls := []
  ongoing_annotations := []
  active_message_phase := none
  active_reasoning := []
  active_item_ids := []
  approval_ids_from_stream := []
  encountered_error := false
  received_terminal_response := false

def custom_name (s : ResponsesStreamState) (provider_name : String) : String := s.mapper.custom_name provider_name

def item_id_meta (item_id : String) : JsonObject := [("itemId",.string item_id)]

def item_info (env : Environment) (item_id : String) (others : List
    (String × Option JsonValue)) : Option ProviderMetadata :=
  some (metadata env.provider_options_key (with_present (item_id_meta item_id) others))

def resolve_item_id (s : ResponsesStreamState) (item_id : String) (output_index : Option Nat) : String :=
  (output_index.bind (s.active_item_ids.lookup ·)).getD item_id

def ongoing (s : ResponsesStreamState) (output_index : Nat) : Option OngoingToolCall :=
  s.ongoing_tool_calls.lookup output_index

def with_call (s : ResponsesStreamState) (output_index : Nat) (call : OngoingToolCall) : ResponsesStreamState :=
  { s with ongoing_tool_calls := put s.ongoing_tool_calls output_index call }

def without_call (s : ResponsesStreamState) (output_index : Nat) : ResponsesStreamState :=
  { s with ongoing_tool_calls := remove s.ongoing_tool_calls output_index }

def with_mapper (s : ResponsesStreamState) (mapper : OutputMapper) : ResponsesStreamState := { s with mapper }

def called (s : ResponsesStreamState) : ResponsesStreamState :=
  { s with mapper := { s.mapper with has_function_call := true } }

/-! ### Items that are added -/

def named_call_added (s : ResponsesStreamState) (item : OutputItem) (output_index : Nat) : Step :=
  let call_id := (item.get_str "call_id").getD ""
  (s.with_call output_index { OngoingToolCall.plain call_id with is_async := present (item.get "async") },
    [tool_input_start call_id (s.custom_name ((item.get_str "name").getD "")) false])

def web_search_added (s : ResponsesStreamState) (item : OutputItem) (output_index : Nat) : Step :=
  let id := item.id_str
  let name := s.mapper.web_search_name
  (s.with_call output_index (.plain id),
    [tool_input_start id name true,.ToolInputEnd id none,.ToolCall (provider_call id name "\x7b\x7d")])

def computer_added (s : ResponsesStreamState) (item : OutputItem) (output_index : Nat) : Step :=
  let call_id := (item.get_str "call_id").getD item.id_str
  (s.with_call output_index (.plain call_id),[tool_input_start call_id (s.custom_name "computer") false])

def code_opening (env : Environment) (container_id : String) : String :=
  "\x7b\"containerId\":\"" ++ escape_json_delta env container_id ++ "\",\"code\":\""

def code_interpreter_added (env : Environment) (s : ResponsesStreamState) (item : OutputItem)
    (output_index : Nat) : Step :=
  let id := item.id_str
  let container_id := (item.get_str "container_id").getD ""
  (s.with_call output_index { OngoingToolCall.plain id with container_id := some container_id },
    [tool_input_start id (s.custom_name "code_interpreter") true,.ToolInputDelta id (code_opening env container_id) none])

def patch_opening (env : Environment) (call_id op_type path : String) : String :=
  "\x7b\"callId\":\"" ++ escape_json_delta env call_id ++ "\",\"operation\":\x7b\"type\":\"" ++ escape_json_delta env op_type ++
    "\",\"path\":\"" ++ escape_json_delta env path ++ "\",\"diff\":\""

def operation_text (operation : JsonValue) (key : String) : String := (value_text (operation.get key)).getD ""

def apply_patch_added (env : Environment) (s : ResponsesStreamState) (item : OutputItem) (output_index : Nat) : Step :=
  let call_id := (item.get_str "call_id").getD ""
  let operation := or_null (item.get "operation")
  let op_type := operation_text operation "type"
  let is_delete : Bool := op_type = "delete_file"
  let opened := s.with_call output_index { OngoingToolCall.plain call_id with apply_patch := some ⟨is_delete,is_delete⟩ }
  let start := tool_input_start call_id (s.custom_name "apply_patch") false
  if is_delete then
    (opened,[start,
      .ToolInputDelta call_id (env.json_text (.object [("callId",.string call_id),("operation",operation)])) none,
      .ToolInputEnd call_id none])
  else (opened,[start,.ToolInputDelta call_id (patch_opening env call_id op_type (operation_text operation "path")) none])

def message_added (env : Environment) (s : ResponsesStreamState) (item : OutputItem) (output_index : Nat) : Step :=
  let id := item.id_str
  let phase := present (item.get "phase")
  ({ s with
      active_item_ids := put s.active_item_ids output_index id
      ongoing_annotations := []
      active_message_phase := phase },[.TextStart id (item_info env id [("phase",phase)])])

def reasoning_info (env : Environment) (item_id : String) (encrypted_content : JsonValue) : Option ProviderMetadata :=
  some (metadata env.provider_options_key ((item_id_meta item_id).insert "reasoningEncryptedContent" encrypted_content))

def summary_id (item_id : String) (index : Nat) : PartId := s!"{item_id}:{index}"

def reasoning_added (env : Environment) (s : ResponsesStreamState) (item : OutputItem) (output_index : Nat) : Step :=
  let id := item.id_str
  let encrypted := or_null (item.get "encrypted_content")
  ({ s with
      active_item_ids := put s.active_item_ids output_index id
      active_reasoning := put s.active_reasoning id ⟨encrypted,[(0,.Active)]⟩ },
    [.ReasoningStart (summary_id id 0) (reasoning_info env id encrypted)])

def item_added (env : Environment) (s : ResponsesStreamState) (item : OutputItem) (output_index : Nat) : Step :=
  let id := item.id_str
  match item.item_kind with
  | .FunctionCall =>
    if item.get_str "name" = some "parallel" ∧ ¬ s.mapper.function_names.contains "parallel" then (s,[])
    else s.named_call_added item output_index
  | .CustomToolCall => s.named_call_added item output_index
  | .WebSearchCall => s.web_search_added item output_index
  | .ComputerCall => s.computer_added item output_index
  | .CodeInterpreterCall => s.code_interpreter_added env item output_index
  | .FileSearchCall => (s,[.ToolCall (provider_call id (s.custom_name "file_search") "\x7b\x7d")])
  | .ImageGenerationCall => (s,[.ToolCall (provider_call id (s.custom_name "image_generation") "\x7b\x7d")])
  | .ApplyPatchCall => s.apply_patch_added env item output_index
  | .Message => s.message_added env item output_index
  | .Reasoning => s.reasoning_added env item output_index
  | _ => (s,[])

def message_done (env : Environment) (s : ResponsesStreamState) (item : OutputItem) (output_index : Nat) : Step :=
  let item_id := s.resolve_item_id item.id_str (some output_index)
  let phase := (present (item.get "phase")).or s.active_message_phase
  let info := with_present (item_id_meta item_id) [("phase",phase)]
  let info := if s.ongoing_annotations = [] then info else info.insert "annotations" (.array s.ongoing_annotations)
  ({ s with
      active_message_phase := none
      ongoing_annotations := []
      active_item_ids := remove s.active_item_ids output_index },
    [.TextEnd item_id (some (metadata env.provider_options_key info))])

def child_parts (call : ToolCall) : List StreamPart :=
  tool_input_start call.tool_call_id call.tool_name false :: whole_input call

def start_unless (ongoing : Option OngoingToolCall) (id name : String) : List StreamPart :=
  if ongoing.isNone then [tool_input_start id name false] else []

def function_call_done (env : Environment) (s : ResponsesStreamState) (item : OutputItem) (output_index : Nat) : Step :=
  match expand env item s.mapper.function_names with
  | some calls => (s.called,calls.flatMap child_parts)
  | none =>
    let ongoing := s.ongoing output_index
    let call_id := (item.get_str "call_id").getD ""
    let name := s.custom_name ((item.get_str "name").getD "")
    let arguments := (item.get_str "arguments").getD "\x7b\x7d"
    let namespace_ := present (item.get "namespace")
    let info := item_info env item.id_str [("async",(present (item.get "async")).or (ongoing.bind (·.is_async))),
      ("namespace",namespace_),("caller",(present (item.get "caller")).map OutputMapper.mapped_caller)]
    ((s.without_call output_index).called,
      start_unless ongoing call_id name ++
        (if ongoing.isNone then [.ToolInputDelta call_id arguments none] else []) ++
        [.ToolInputEnd call_id (namespace_.map fun value => metadata env.provider_options_key [("namespace",value)]),
          .ToolCall { ToolCall.new call_id name arguments with provider_metadata := info }])

def custom_tool_call_done (env : Environment) (s : ResponsesStreamState) (item : OutputItem)
    (output_index : Nat) : Step :=
  let ongoing := s.ongoing output_index
  let call_id := (item.get_str "call_id").getD ""
  let name := s.custom_name ((item.get_str "name").getD "")
  let info := item_info env item.id_str [("async",(present (item.get "async")).or (ongoing.bind (·.is_async)))]
  ((s.without_call output_index).called,
    start_unless ongoing call_id name ++ [.ToolInputEnd call_id none,
      .ToolCall { ToolCall.new call_id name (env.json_text (or_null (item.get "input"))) with provider_metadata := info }])

def computer_done (env : Environment) (s : ResponsesStreamState) (item : OutputItem) (output_index : Nat) : Step :=
  let call_id := (item.get_str "call_id").getD item.id_str
  let name := s.custom_name "computer"
  let input := env.json_text (OutputMapper.computer_input item)
  ((s.without_call output_index).called,
    start_unless (s.ongoing output_index) call_id name ++
      whole_input { ToolCall.new call_id name input with provider_metadata := item_info env item.id_str [] })

def code_interpreter_done (env : Environment) (s : ResponsesStreamState) (item : OutputItem)
    (output_index : Nat) : Step :=
  let id := item.id_str
  let name := s.custom_name "code_interpreter"
  let input := env.json_text (OutputMapper.code_input (item.get "code") (item.get "container_id"))
  (s.without_call output_index,
    (if (s.ongoing output_index).isNone then [.ToolCall (provider_call id name input)] else []) ++
      [.ToolResult (provider_result id name (.object [("outputs",or_null (item.get "outputs"))]))])

def aliased (replaced : Option String) (content : Content) : Content :=
  match replaced,content with
  | some replaced,.ToolCall call => .ToolCall { call with tool_call_id := replaced }
  | some replaced,.ToolResult result => .ToolResult { result with tool_call_id := replaced }
  | _,_ => content

def mcp_call_done (env : Environment) (s : ResponsesStreamState) (item : OutputItem) (output_index : Nat) : Step :=
  let replaced := (item.get_str "approval_request_id").bind fun approval =>
    (s.approval_ids_from_stream.lookup approval).or (s.mapper.approval_tool_call_ids.lookup approval)
  let (mapper,mapped) := s.mapper.map_item env item false
  ((s.without_call output_index).with_mapper mapper,content_to_parts (mapped.map (aliased replaced)))

def record_approval (ids : List (String × String)) : Content → List (String × String)
  | .ToolApprovalRequest approval_id tool_call_id _ => put ids approval_id tool_call_id
  | _ => ids

def mcp_approval_done (env : Environment) (s : ResponsesStreamState) (item : OutputItem) (output_index : Nat) : Step :=
  let (mapper,mapped) := s.mapper.map_item env item false
  ({ (s.without_call output_index).with_mapper mapper with
      approval_ids_from_stream := mapped.foldl record_approval s.approval_ids_from_stream },content_to_parts mapped)

def patch_closing (env : Environment) (call_id : String) (state : ApplyPatchState) (diff : String) : List StreamPart :=
  (if state.has_diff then [] else [.ToolInputDelta call_id (escape_json_delta env diff) none]) ++
    [.ToolInputDelta call_id "\"\x7d\x7d" none,.ToolInputEnd call_id none]

def item_closing (env : Environment) (call : OngoingToolCall) (operation : JsonValue) : List StreamPart :=
  match call.apply_patch with
  | some state =>
    if state.end_emitted = false ∧ operation_text operation "type" ≠ "delete_file" then
      patch_closing env call.tool_call_id state (operation_text operation "diff")
    else []
  | none => []

def apply_patch_done (env : Environment) (s : ResponsesStreamState) (item : OutputItem) (output_index : Nat) : Step :=
  let operation := or_null (item.get "operation")
  match s.ongoing output_index with
  | none => (s.without_call output_index,[])
  | some call =>
    let closing := item_closing env call operation
    if item.status = some "completed" then
      let input := env.json_text (.object [("callId",or_null (item.get "call_id")),("operation",operation)])
      ((s.without_call output_index).called,closing ++
        [.ToolCall { ToolCall.new call.tool_call_id (s.custom_name "apply_patch") input with
          provider_metadata := item_info env item.id_str [] }])
    else (s.without_call output_index,closing)

def mapped_call_parts : Content → List StreamPart
  | .ToolCall call => tool_input_start call.tool_call_id call.tool_name call.provider_executed :: whole_input call
  | _ => []

def mapped_call_done (env : Environment) (s : ResponsesStreamState) (item : OutputItem) (output_index : Nat) : Step :=
  let (mapper,mapped) := s.mapper.map_item env item false
  ((s.without_call output_index).with_mapper mapper,mapped.flatMap mapped_call_parts)

def mapped_done (env : Environment) (s : ResponsesStreamState) (item : OutputItem) : Step :=
  let (mapper,mapped) := s.mapper.map_item env item false
  (s.with_mapper mapper,content_to_parts mapped)

def reasoning_done (env : Environment) (s : ResponsesStreamState) (item : OutputItem) (output_index : Nat) : Step :=
  let item_id := s.resolve_item_id item.id_str (some output_index)
  let info := reasoning_info env item_id (or_null (item.get "encrypted_content"))
  let ends := match s.active_reasoning.lookup item_id with
    | some active => active.summaries.flatMap fun summary =>
      if summary.2 = .Concluded then [] else [.ReasoningEnd (summary_id item_id summary.1) info]
    | none => []
  ({ s with
      active_reasoning := remove s.active_reasoning item_id
      active_item_ids := remove s.active_item_ids output_index },ends)

def item_done (env : Environment) (s : ResponsesStreamState) (item : OutputItem) (output_index : Nat) : Step :=
  let id := item.id_str
  match item.item_kind with
  | .Message => s.message_done env item output_index
  | .FunctionCall => s.function_call_done env item output_index
  | .CustomToolCall => s.custom_tool_call_done env item output_index
  | .WebSearchCall => (s.without_call output_index,
      [.ToolResult (provider_result id s.mapper.web_search_name (map_web_search_output (item.get "action")))])
  | .ComputerCall => s.computer_done env item output_index
  | .FileSearchCall => (s.without_call output_index,
      [.ToolResult (provider_result id (s.custom_name "file_search") (map_file_search_output item))])
  | .CodeInterpreterCall => s.code_interpreter_done env item output_index
  | .ImageGenerationCall => (s,[.ToolResult (provider_result id (s.custom_name "image_generation")
      (.object [("result",or_null (item.get "result"))]))])
  | .McpCall => s.mcp_call_done env item output_index
  | .McpApprovalRequest => s.mcp_approval_done env item output_index
  | .ApplyPatchCall => s.apply_patch_done env item output_index
  | .LocalShellCall | .ShellCall | .Program | .ToolSearchCall => s.mapped_call_done env item output_index
  | .ShellCallOutput | .ProgramOutput | .ToolSearchOutput | .Compaction => s.mapped_done env item
  | .Reasoning => s.reasoning_done env item output_index
  | .Other => (s,[])

def call_of (s : ResponsesStreamState) (chunk : ResponsesChunk) : Option (Nat × OngoingToolCall) :=
  chunk.output_index.bind fun index => (s.ongoing index).map (index,·)

def input_delta (s : ResponsesStreamState) (chunk : ResponsesChunk) (text : String → String) : List StreamPart :=
  match s.call_of chunk,chunk.get_str "delta" with
  | some (_,call),some delta => [.ToolInputDelta call.tool_call_id (text delta) none]
  | _,_ => []

def diff_delta (env : Environment) (s : ResponsesStreamState) (chunk : ResponsesChunk) : Step :=
  match s.call_of chunk,chunk.get_str "delta" with
  | some (index,call),some delta =>
    match call.apply_patch with
    | some state =>
      (s.with_call index { call with apply_patch := some { state with has_diff := true } },
        [.ToolInputDelta call.tool_call_id (escape_json_delta env delta) none])
    | none => (s,[])
  | _,_ => (s,[])

def diff_done (env : Environment) (s : ResponsesStreamState) (chunk : ResponsesChunk) : Step :=
  match s.call_of chunk with
  | some (index,call) =>
    match call.apply_patch with
    | some state =>
      if state.end_emitted then (s,[])
      else (s.with_call index { call with apply_patch := some ⟨true,true⟩ },
        patch_closing env call.tool_call_id state ((chunk.get_str "diff").getD ""))
    | none => (s,[])
  | none => (s,[])

def code_done (env : Environment) (s : ResponsesStreamState) (chunk : ResponsesChunk) : List StreamPart :=
  match s.call_of chunk with
  | some (_,call) =>
    let input := env.json_text (OutputMapper.code_input (chunk.get "code") (call.container_id.map .string))
    [.ToolInputDelta call.tool_call_id "\"\x7d" none,.ToolInputEnd call.tool_call_id none,
      .ToolCall (provider_call call.tool_call_id (s.custom_name "code_interpreter") input)]
  | none => []

/-! ### Reasoning and the response -/

def reasoning_part_added (env : Environment) (s : ResponsesStreamState) (chunk : ResponsesChunk) : Step :=
  let item_id := s.resolve_item_id ((chunk.get_str "item_id").getD "") chunk.output_index
  let summary_index := (chunk.get_u64 "summary_index").getD 0
  if summary_index = 0 then (s,[])
  else match s.active_reasoning.lookup item_id with
    | none => (s,[])
    | some active =>
      let summaries := insert_summary summary_index .Active active.summaries
      let ends := summaries.flatMap fun summary =>
        if summary.2 = .CanConclude then [.ReasoningEnd (summary_id item_id summary.1) (item_info env item_id [])] else []
      let concluded := summaries.map fun summary =>
        if summary.2 = .CanConclude then (summary.1,.Concluded) else summary
      ({ s with active_reasoning := put s.active_reasoning item_id { active with summaries := concluded } },
        ends ++ [.ReasoningStart (summary_id item_id summary_index) (reasoning_info env item_id active.encrypted_content)])

def reasoning_part_done (env : Environment) (s : ResponsesStreamState) (chunk : ResponsesChunk) : Step :=
  let item_id := s.resolve_item_id ((chunk.get_str "item_id").getD "") chunk.output_index
  let summary_index := (chunk.get_u64 "summary_index").getD 0
  match s.active_reasoning.lookup item_id with
  | none => (s,[])
  | some active =>
    let settled (state : SummaryState) : ResponsesStreamState :=
      let summaries := insert_summary summary_index state active.summaries
      { s with active_reasoning := put s.active_reasoning item_id { active with summaries } }
    if s.store then (settled .Concluded,[.ReasoningEnd (summary_id item_id summary_index) (item_info env item_id [])])
    else (settled .CanConclude,[])

def text_delta (s : ResponsesStreamState) (chunk : ResponsesChunk) : Step :=
  let item_id := s.resolve_item_id ((chunk.get_str "item_id").getD "") chunk.output_index
  let logprobs := if s.collect_logprobs then (chunk.get "logprobs").toList else []
  (s.with_mapper { s.mapper with logprobs := s.mapper.logprobs ++ logprobs },
    [.TextDelta item_id ((chunk.get_str "delta").getD "") none])

def annotation_added (env : Environment) (s : ResponsesStreamState) (chunk : ResponsesChunk) : Step :=
  match chunk.get "annotation" with
  | none => (s,[])
  | some annotation =>
    let (generated,source) := annotation_source env s.mapper.generated annotation
    ({ s with mapper := { s.mapper with generated },ongoing_annotations := s.ongoing_annotations ++ [ annotation] },
      source.toList.map .Source)

def completed (s : ResponsesStreamState) (response : ResponsesResponse) (raw : JsonValue) : ResponsesStreamState :=
  { s with
    received_terminal_response := true
    finish_reason :=
      if s.encountered_error then s.finish_reason
      else map_finish_reason response.incomplete_reason s.mapper.has_function_call
    usage := response.usage
    raw_usage := ((raw.get "response").bind (·.get "usage")).bind JsonValue.as_object
    service_tier := response.service_tier.or s.service_tier
    reasoning_context := response.reasoning_context.or s.reasoning_context }

def failed (env : Environment) (s : ResponsesStreamState) (response : ResponsesResponse) (raw : JsonValue) : Step :=
  let reported := !s.encountered_error && response.error
  ({ s with
      received_terminal_response := true
      finish_reason := match response.incomplete_reason with
        | some reason => map_finish_reason (some reason) s.mapper.has_function_call
        | none => .with_raw .Error "error"
      usage := response.usage
      reasoning_context := response.reasoning_context.or s.reasoning_context
      encountered_error := s.encountered_error || reported },
    if reported then [.Error (stream_error_for_frame env.toConfig raw)] else [])

def handle_chunk (env : Environment) (s : ResponsesStreamState) (chunk : ResponsesChunk) (raw : JsonValue) : Step :=
  let response := (chunk.get "response").bind env.read_response
  match chunk.chunk_kind with
  | .OutputItemAdded =>
    match chunk.item with
    | some item => s.item_added env item (chunk.output_index.getD 0)
    | none => (s,[])
  | .OutputItemDone =>
    match chunk.item with
    | some item => s.item_done env item (chunk.output_index.getD 0)
    | none => (s,[])
  | .FunctionCallArgumentsDelta | .CustomToolCallInputDelta => (s,s.input_delta chunk id)
  | .ApplyPatchDiffDelta => s.diff_delta env chunk
  | .ApplyPatchDiffDone => s.diff_done env chunk
  | .PartialImage =>
    (s,[.ToolResult { provider_result ((chunk.get_str "item_id").getD "") (s.custom_name "image_generation")
      (.object [("result",or_null (chunk.get "partial_image_b64"))]) with preliminary := true }])
  | .CodeInterpreterCodeDelta => (s,s.input_delta chunk (escape_json_delta env))
  | .CodeInterpreterCodeDone => (s,s.code_done env chunk)
  | .Created =>
    match response with
    | some response => ({ s with response_id := response.id },
        [.ResponseMetadata response.id (timestamp_from_seconds response.created_at) response.model])
    | none => (s,[])
  | .OutputTextDelta => s.text_delta chunk
  | .ReasoningPartAdded => s.reasoning_part_added env chunk
  | .ReasoningTextDelta =>
    let item_id := s.resolve_item_id ((chunk.get_str "item_id").getD "") chunk.output_index
    (s,[.ReasoningDelta (summary_id item_id ((chunk.get_u64 "summary_index").getD 0)) ((chunk.get_str "delta").getD "")
      (item_info env item_id [])])
  | .ReasoningPartDone => s.reasoning_part_done env chunk
  | .Completed | .Incomplete =>
    match response with
    | some response => (s.completed response raw,[])
    | none => (s,[])
  | .Failed =>
    match response with
    | some response => s.failed env response raw
    | none => (s,[])
  | .AnnotationAdded => s.annotation_added env chunk
  | .Error => ({ s with encountered_error := true,finish_reason := .with_raw .Error "error" },
      [.Error (stream_error_for_frame env.toConfig raw)])
  | .Other => (s,[])

def handle_parsed (env : Environment) (s : ResponsesStreamState) (chunk : ParseResult ResponsesChunk)
    (include_raw : Bool) :
    Step :=
  match chunk with
  | .Ok value raw =>
    let (s,parts) := s.handle_chunk env value raw
    (s,(if include_raw then [.Raw raw] else []) ++ parts)
  | .Err error raw =>
    ({ s with encountered_error := true,finish_reason := .error },
      (if include_raw then raw.toList.map fun raw => .Raw (.string raw) else []) ++ [.error error])

end ResponsesStreamState

end Ferrin.OpenAi.Responses
