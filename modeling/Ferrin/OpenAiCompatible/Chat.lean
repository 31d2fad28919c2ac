import Mathlib.Data.List.Infix
import Ferrin.LanguageModel

/-!
Chat completions of compatible endpoints: the wire types and their mapping to
content, finish reasons, usage, metadata and errors.
-/
namespace Ferrin.OpenAiCompatible
open JsonObject (extend get)
open JsonValue (as_str)

/-! ### Wire types -/

structure PromptTokensDetails where
  cached_tokens : Option Nat

structure CompletionTokensDetails where
  reasoning_tokens : Option Nat
  accepted_prediction_tokens : Option Nat
  rejected_prediction_tokens : Option Nat

structure ChatUsage where
  prompt_tokens : Option Nat
  completion_tokens : Option Nat
  total_tokens : Option Nat
  prompt_tokens_details : Option PromptTokensDetails
  completion_tokens_details : Option CompletionTokensDetails

inductive ChatContent where
  | Text (text : String)
  | Parts (parts : List JsonObject)

structure ChatFunction where
  name : Option String
  arguments : Option String

structure ChatToolCall where
  index : Option Nat
  id : Option String
  function : Option ChatFunction
  extra_content : Option JsonValue

structure ChatMessage where
  content : Option ChatContent
  reasoning_content : Option String
  reasoning : Option String
  tool_calls : Option (List ChatToolCall)

structure ChatChoice where
  delta : Option ChatMessage
  finish_reason : Option String

/-- A number of seconds as a float, as far as it is read: its integer part, if it is finite. -/
inductive Seconds where
  | Finite (trunc : Int)
  | NonFinite

structure ChatResponse where
  id : Option String
  created : Option Seconds
  model : Option String
  choices : Option (List ChatChoice)
  usage : Option ChatUsage
  error : Option JsonValue

/-- The Gemini thought signature carried in `extra_content`. -/
def ChatToolCall.thought_signature (call : ChatToolCall) : Option String := do
  let content ← call.extra_content
  let google ← content.get "google"
  let signature ← google.get "thought_signature"
  let text ← signature.as_str
  if text = "" then none else some text

def ChatToolCall.name (call : ChatToolCall) : Option String := call.function.bind (·.name)
def ChatToolCall.arguments (call : ChatToolCall) : Option String := call.function.bind (·.arguments)

def ChatMessage.reasoning_text (message : ChatMessage) : Option String :=
  message.reasoning_content <|> message.reasoning

def map_finish_reason (reason : String) : FinishReason :=
  .with_raw (match reason with
    | "stop" => .Stop
    | "length" => .Length
    | "content_filter" => .ContentFilter
    | "function_call" => .ToolCalls
    | "tool_calls" => .ToolCalls
    | _ => .Other) reason

def convert_usage (usage : ChatUsage) (raw : Option JsonObject) : Usage :=
  let input := usage.prompt_tokens.getD 0
  let output := usage.completion_tokens.getD 0
  let cached := (usage.prompt_tokens_details.bind (·.cached_tokens)).getD 0
  let reasoning := (usage.completion_tokens_details.bind (·.reasoning_tokens)).getD 0
  { input := ⟨some input,some (input - cached),some cached,none⟩
    output := ⟨some output,some (output - reasoning),some reasoning⟩
    raw := raw }

def countOf (n : Nat) : JsonValue := .number (.PosInt n.toUInt64)

def prediction_metadata (usage : ChatUsage) : JsonObject :=
  match usage.completion_tokens_details with
  | none => []
  | some details =>
    (details.accepted_prediction_tokens.map fun n => ("acceptedPredictionTokens",countOf n)).toList ++
      (details.rejected_prediction_tokens.map fun n => ("rejectedPredictionTokens",countOf n)).toList

def textOf (value : JsonValue) : Option String := (value.get "text").bind as_str

def convert_part (part : JsonObject) : Option Content := do
  let kind ← (get part "type").bind as_str
  match kind with
  | "text" =>
    let text ← (← get part "text").as_str
    if text = "" then none else some (.Text text none)
  | "thinking" =>
    let chunks ← (← get part "thinking").as_array
    let texts := (chunks.filter fun chunk => (chunk.get "type").bind as_str = some "text").filterMap textOf
    let reasoning := String.join texts
    if reasoning = "" then none else some (.Reasoning reasoning none)
  | _ => none

def convert_content : Option ChatContent → List Content
  | none => []
  | some (.Text text) => if text = "" then [] else [.Text text none]
  | some (.Parts parts) => parts.filterMap convert_part

def metadata_under (key : String) (value : JsonObject) : ProviderMetadata := [(key,value)]

/-- One entry of `merge_metadata`: the keys stay in order. -/
def merge_entry (key : String) (value : JsonObject) : ProviderMetadata → ProviderMetadata
  | [] => [(key,extend [] value)]
  | (k,v) :: rest =>
    if key = k then (k,extend v value) :: rest
    else if key < k then (key,extend [] value) :: (k,v) :: rest
    else (k,v) :: merge_entry key value rest

def merge_metadata (base extra : ProviderMetadata) : ProviderMetadata :=
  extra.foldl (fun base entry => merge_entry entry.1 entry.2 base) base

/-- A time in the range of `chrono::DateTime`, in whole seconds. The cast to
    `i64` saturates outside that range. -/
def timestamp_from_seconds : Option Seconds → Option Int
  | some (.Finite seconds) => if -8334601228800 ≤ seconds ∧ seconds ≤ 8210266876799 then some seconds else none
  | _ => none

/-- `str::contains`. -/
def contains (text term : String) : Bool := term.toList <:+: text.toList

structure FrameError where
  message : String
  code : Option String
  error_type : Option String

def statusOf (code : String) : Option Nat :=
  if code.length = 3 ∧ code.toList.all Char.isDigit then
    let n := code.toList.foldl (fun n c => 10 * n + (c.toNat - '0'.toNat)) 0
    if 400 ≤ n ∧ n ≤ 599 then some n else none
  else none

def FrameError.status_code (e : FrameError) : Nat :=
  match e.code.bind statusOf with
  | some status => status
  | none =>
    let discriminator := (e.code.getD "" ++ " " ++ e.error_type.getD "").map Char.toLower
    let has := contains discriminator
    if has "insufficient_quota" || has "rate_limit" then 429
    else if has "authentication" then 401
    else if has "permission" then 403
    else if has "not_found" then 404
    else if has "invalid" || has "bad_request" || has "context_length" then 400
    else if has "overload" then 503
    else if has "timeout" then 504
    else 500

def FrameError.is_retryable (e : FrameError) : Bool :=
  if e.code = some "insufficient_quota" ∨ e.error_type = some "insufficient_quota" then false
  else
    let status := e.status_code
    status = 408 || status = 409 || status = 429 || 500 ≤ status

def FrameError.to_stream_error (e : FrameError) (frame : JsonValue) : StreamError where
  message := e.message
  error_type := e.error_type
  code := e.code.map .Text
  status_code := some e.status_code
  is_retryable := some e.is_retryable
  data := some frame

/-- What the endpoint's configuration and the JSON library supply for reading errors. -/
structure ErrorStructure where
  /-- The message of an error body, if the body has the structure. -/
  message : JsonValue → Option String
  /-- `serde_json::Number::to_string`. -/
  number_text : JsonNumber → String

def code_text (structure_ : ErrorStructure) : Option JsonValue → Option String
  | some (.string text) => some text
  | some (.number n) => some (structure_.number_text n)
  | _ => none

def parse_frame_error (structure_ : ErrorStructure) (frame : JsonValue) : Option FrameError := do
  let message ← structure_.message frame
  let detail := (frame.get "error").bind JsonValue.as_object
  return {
    message := message
    code := detail.bind fun d => code_text structure_ (get d "code")
    error_type := (detail.bind fun d => get d "type").bind as_str }

def stream_error_for_frame (structure_ : ErrorStructure) (frame : JsonValue) : StreamError :=
  match parse_frame_error structure_ frame with
  | some error => error.to_stream_error frame
  | none => { StreamError.new "stream error" with data := some frame }

end Ferrin.OpenAiCompatible
