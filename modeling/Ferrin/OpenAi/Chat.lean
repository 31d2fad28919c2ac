import Ferrin.OpenAiCompatible.Chat

/-!
Chat completions of the OpenAI API: the wire types, the mapping of their
output, and the errors in stream frames.
-/
namespace Ferrin.OpenAi
open OpenAiCompatible (Seconds FrameError code_text)
open JsonObject (get)

/-! ### Wire types -/

structure PromptTokensDetails where
  cached_tokens : Option Nat
  cache_write_tokens : Option Nat

structure CompletionTokensDetails where
  reasoning_tokens : Option Nat
  accepted_prediction_tokens : Option Nat
  rejected_prediction_tokens : Option Nat

structure ChatUsage where
  prompt_tokens : Option Nat
  completion_tokens : Option Nat
  prompt_tokens_details : Option PromptTokensDetails
  completion_tokens_details : Option CompletionTokensDetails

structure ChatFunction where
  name : Option String
  arguments : Option String

structure ChatToolCall where
  index : Option Nat
  id : Option String
  function : Option ChatFunction

structure UrlCitation where
  url : String
  title : Option String

structure ChatAnnotation where
  kind : String
  url_citation : Option UrlCitation

structure ChatMessage where
  content : Option String
  tool_calls : Option (List ChatToolCall)
  annotations : Option (List ChatAnnotation)

structure ChatLogprobs where
  content : Option (List JsonValue)

structure ChatChoice where
  delta : Option ChatMessage
  finish_reason : Option String
  logprobs : Option ChatLogprobs

structure ChatResponse where
  id : Option String
  created : Option Seconds
  model : Option String
  choices : Option (List ChatChoice)
  usage : Option ChatUsage
  error : Option JsonValue

def ChatToolCall.name (call : ChatToolCall) : Option String := call.function.bind (·.name)
def ChatToolCall.arguments (call : ChatToolCall) : Option String := call.function.bind (·.arguments)

def map_chat_finish_reason (reason : String) : FinishReason :=
  .with_raw (match reason with
    | "stop" => .Stop
    | "length" => .Length
    | "content_filter" => .ContentFilter
    | "function_call" | "tool_calls" => .ToolCalls
    | _ => .Other) reason

def map_chat_usage (usage : ChatUsage) (raw : Option JsonObject) : Usage :=
  let input := usage.prompt_tokens.getD 0
  let output := usage.completion_tokens.getD 0
  let cached := usage.prompt_tokens_details.bind (·.cached_tokens)
  let cache_write := usage.prompt_tokens_details.bind (·.cache_write_tokens)
  let reasoning := usage.completion_tokens_details.bind (·.reasoning_tokens)
  { input := ⟨some input,some (input - cached.getD 0 - cache_write.getD 0),some (cached.getD 0),cache_write⟩
    output := ⟨some output,some (output - reasoning.getD 0),some (reasoning.getD 0)⟩
    raw := raw }

def prediction_metadata (usage : ChatUsage) : List (String × Nat) :=
  match usage.completion_tokens_details with
  | none => []
  | some details =>
    (details.accepted_prediction_tokens.map fun n => ("acceptedPredictionTokens",n)).toList ++
      (details.rejected_prediction_tokens.map fun n => ("rejectedPredictionTokens",n)).toList

def metadata (key : String) (object : JsonObject) : ProviderMetadata := [(key,object)]

/-- The name of the options, the id generator, which yields its n-th id for `n`, and the texts that
`serde_json` writes. -/
structure Config where
  provider_options_key : String
  generate_id : Nat → String
  number_text : JsonNumber → String
  json_text : JsonValue → String

def errorText (config : Config) (code : Option JsonValue) : Option String :=
  code_text ⟨fun _ => none,config.number_text⟩ code

def parse_failed (config : Config) (object : JsonObject) : Option FrameError := do
  let response ← get object "response"
  let error ← (← response.get "error").as_object
  let message ← (← get error "message").as_str
  return ⟨message,errorText config (get error "code"),some "response.failed"⟩

def isString (value : Option JsonValue) : Bool := (value.bind JsonValue.as_str).isSome

def parse_frame_error (config : Config) (frame : JsonValue) : Option FrameError := do
  let object ← frame.as_object
  if (get object "type").bind JsonValue.as_str = some "response.failed" then parse_failed config object
  else
    let nested := (get object "error").bind JsonValue.as_object
    let error := nested.getD object
    let message ← (← get error "message").as_str
    let type := get error "type"
    if nested.isSome || isString type || (get error "code").isSome || (get error "param").isSome then
      some ⟨message,errorText config (get error "code"),type.bind JsonValue.as_str⟩
    else none

def stream_error_for_frame (config : Config) (frame : JsonValue) : StreamError :=
  match parse_frame_error config frame with
  | some error => error.to_stream_error frame
  | none => { StreamError.new "OpenAI stream error" with data := some frame }

end Ferrin.OpenAi
