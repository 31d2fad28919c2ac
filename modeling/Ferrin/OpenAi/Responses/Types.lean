import Ferrin.OpenAi.Chat

/-!
The items and events of the Responses API.
-/
namespace Ferrin.OpenAi.Responses
open OpenAiCompatible (Seconds)

inductive ItemKind where
  | Message
  | Reasoning
  | FunctionCall
  | CustomToolCall
  | WebSearchCall
  | ComputerCall
  | CodeInterpreterCall
  | FileSearchCall
  | ImageGenerationCall
  | ApplyPatchCall
  | McpCall
  | McpApprovalRequest
  | LocalShellCall
  | ShellCall
  | ShellCallOutput
  | Program
  | ProgramOutput
  | ToolSearchCall
  | ToolSearchOutput
  | Compaction
  | Other

def ItemKind.parse : String → ItemKind
  | "message" => .Message
  | "reasoning" => .Reasoning
  | "function_call" => .FunctionCall
  | "custom_tool_call" => .CustomToolCall
  | "web_search_call" => .WebSearchCall
  | "computer_call" => .ComputerCall
  | "code_interpreter_call" => .CodeInterpreterCall
  | "file_search_call" => .FileSearchCall
  | "image_generation_call" => .ImageGenerationCall
  | "apply_patch_call" => .ApplyPatchCall
  | "mcp_call" => .McpCall
  | "mcp_approval_request" => .McpApprovalRequest
  | "local_shell_call" => .LocalShellCall
  | "shell_call" => .ShellCall
  | "shell_call_output" => .ShellCallOutput
  | "program" => .Program
  | "program_output" => .ProgramOutput
  | "tool_search_call" => .ToolSearchCall
  | "tool_search_output" => .ToolSearchOutput
  | "compaction" => .Compaction
  | _ => .Other

/-- The kinds of events that are told apart. -/
inductive ChunkKind where
  | OutputItemAdded
  | OutputItemDone
  | FunctionCallArgumentsDelta
  | CustomToolCallInputDelta
  | ApplyPatchDiffDelta
  | ApplyPatchDiffDone
  | PartialImage
  | CodeInterpreterCodeDelta
  | CodeInterpreterCodeDone
  | Created
  | OutputTextDelta
  | ReasoningPartAdded
  | ReasoningTextDelta
  | ReasoningPartDone
  | Completed
  | Incomplete
  | Failed
  | AnnotationAdded
  | Error
  | Other

def ChunkKind.parse : String → ChunkKind
  | "response.output_item.added" => .OutputItemAdded
  | "response.output_item.done" => .OutputItemDone
  | "response.function_call_arguments.delta" => .FunctionCallArgumentsDelta
  | "response.custom_tool_call_input.delta" => .CustomToolCallInputDelta
  | "response.apply_patch_call_operation_diff.delta" => .ApplyPatchDiffDelta
  | "response.apply_patch_call_operation_diff.done" => .ApplyPatchDiffDone
  | "response.image_generation_call.partial_image" => .PartialImage
  | "response.code_interpreter_call_code.delta" => .CodeInterpreterCodeDelta
  | "response.code_interpreter_call_code.done" => .CodeInterpreterCodeDone
  | "response.created" => .Created
  | "response.output_text.delta" => .OutputTextDelta
  | "response.reasoning_summary_part.added" => .ReasoningPartAdded
  | "response.reasoning_summary_text.delta" => .ReasoningTextDelta
  | "response.reasoning_summary_part.done" => .ReasoningPartDone
  | "response.completed" => .Completed
  | "response.incomplete" => .Incomplete
  | "response.failed" => .Failed
  | "response.output_text.annotation.added" => .AnnotationAdded
  | "error" => .Error
  | _ => .Other

structure ResponsesUsage where
  input_tokens : Option Nat
  cached_tokens : Option Nat
  cache_write_tokens : Option Nat
  output_tokens : Option Nat
  reasoning_tokens : Option Nat

/-- The fields of a response that a stream reads. -/
structure ResponsesResponse where
  id : Option String
  created_at : Option Seconds
  model : Option String
  error : Bool
  incomplete_reason : Option String
  service_tier : Option String
  reasoning_context : Option JsonValue
  usage : Option ResponsesUsage

structure OutputItem where
  kind : String
  id : Option String
  status : Option String
  rest : JsonObject

namespace OutputItem

def get (item : OutputItem) (key : String) : Option JsonValue := JsonObject.get item.rest key
def get_str (item : OutputItem) (key : String) : Option String := (item.get key).bind JsonValue.as_str
def id_str (item : OutputItem) : String := item.id.getD ""
def item_kind (item : OutputItem) : ItemKind := .parse item.kind

/-- An optional text, that may be `null`. -/
def optional_text : Option JsonValue → Option (Option String)
  | none | some .null => some none
  | some (.string text) => some (some text)
  | some _ => none

/-- `serde_json::from_value`. -/
def from_value : JsonValue → Option OutputItem
  | .object entries => do
    let kind ← (← JsonObject.get entries "type").as_str
    let id ← optional_text (JsonObject.get entries "id")
    let status ← optional_text (JsonObject.get entries "status")
    return ⟨kind,id,status,entries.filter fun entry => entry.1 ∉ ["type","id","status"]⟩
  | _ => none

end OutputItem

/-- A streamed event: its type and the JSON of its other fields. -/
structure ResponsesChunk where
  kind : String
  rest : JsonObject

namespace ResponsesChunk

def get (chunk : ResponsesChunk) (key : String) : Option JsonValue := JsonObject.get chunk.rest key
def get_str (chunk : ResponsesChunk) (key : String) : Option String := (chunk.get key).bind JsonValue.as_str
def get_u64 (chunk : ResponsesChunk) (key : String) : Option Nat := (chunk.get key).bind JsonValue.as_u64
def chunk_kind (chunk : ResponsesChunk) : ChunkKind := .parse chunk.kind
def item (chunk : ResponsesChunk) : Option OutputItem := (chunk.get "item").bind OutputItem.from_value
def output_index (chunk : ResponsesChunk) : Option Nat := chunk.get_u64 "output_index"

end ResponsesChunk

/-- The libraries under the stream: reading JSON, and the reading of a response that `serde` derives. -/
structure Environment extends Config where
  from_str : String → Option JsonValue
  read_response : JsonValue → Option ResponsesResponse

/-- A value that is there and not `null`. -/
def present (value : Option JsonValue) : Option JsonValue := value.filter (· ≠ .null)

/-- A value of `json!`, `null` if there is none. -/
def or_null (value : Option JsonValue) : JsonValue := value.getD .null

end Ferrin.OpenAi.Responses
