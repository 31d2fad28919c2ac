import Ferrin.Headers
import Ferrin.Message
import Ferrin.RetryLoop

/-!
The copies of errors that telemetry receives. Errors that differ in content
only have equal copies when neither inputs nor outputs are recorded. Boxed
errors and URLs are those of libraries: a boxed error is made of a text, and a
URL is known by its components.
-/
namespace Ferrin.Telemetry

/-! ### URLs -/

inductive UrlPath where
  | Segments (text : String)
  | Opaque (text : String)

namespace UrlPath

def cannot_be_a_base : UrlPath → Bool
  | Segments _ => false
  | Opaque _ => true

/-- What `set_path("/")` leaves. An opaque path stays opaque. -/
def root : UrlPath → UrlPath
  | Segments _ => Segments "/"
  | Opaque _ => Opaque "%2F"

@[simp]
theorem root_root (path : UrlPath) : path.root.root = path.root := by
  cases path <;> rfl

theorem root_eq_iff {path path' : UrlPath} :
    path.root = path'.root ↔ path.cannot_be_a_base = path'.cannot_be_a_base := by
  cases path <;> cases path' <;> simp [root, cannot_be_a_base]

end UrlPath

structure UrlComponents where
  scheme : String
  username : String
  password : Option String
  host : Option String
  port : Option UInt16
  path : UrlPath
  query : Option String
  fragment : Option String

class UrlSetters (Url : Type) where
  components : Url → UrlComponents
  set_path : Url → String → Url
  set_query : Url → Option String → Url
  set_fragment : Url → Option String → Url
  set_username : Url → String → Url
  set_password : Url → Option String → Url

open UrlSetters (components set_path set_query set_fragment set_username set_password)

/--
A URL is its components, and a setter changes its own. A URL that takes no
credentials has none. Another opaque path can lose the spaces at its end with
its query, so the laws are about the path `set_path` leaves.
-/
class LawfulUrlSetters (Url : Type) [UrlSetters Url] : Prop where
  components_injective : Function.Injective (components : Url → UrlComponents)
  components_set_path : ∀ url : Url, components (set_path url "/") =
    { components url with path := (components url).path.root }
  components_set_query : ∀ url : Url, (components url).path.root = (components url).path →
    components (set_query url none) = { components url with query := none }
  components_set_fragment : ∀ url : Url, (components url).path.root = (components url).path →
    components (set_fragment url none) = { components url with fragment := none }
  components_set_username : ∀ url : Url, components (set_username url "") = { components url with username := "" }
  components_set_password : ∀ url : Url, components (set_password url none) = { components url with password := none }

instance : UrlSetters UrlComponents where
  components := id
  set_path url _ := { url with path := url.path.root }
  set_query url query := { url with query }
  set_fragment url fragment := { url with fragment }
  set_username url username := { url with username }
  set_password url password := { url with password }

instance : LawfulUrlSetters UrlComponents where
  components_injective := Function.injective_id
  components_set_path _ := rfl
  components_set_query _ _ := rfl
  components_set_fragment _ _ := rfl
  components_set_username _ := rfl
  components_set_password _ := rfl

inductive ModelKind where
  | Language
  | Embedding
  | Image
  | Transcription
  | Speech
  | Reranking
  | Video
  | SpeechTranslation
  | Realtime

structure ResponseMetadata where
  id : Option String
  timestamp : Option Int
  model_id : Option ModelId
  headers : Option Headers
  body : Option JsonValue

inductive TimeoutScope where
  | Total
  | Step
  | FirstChunk
  | Chunk
  | Tool (tool_name : ToolName)

structure ApiCallError (Url ε : Type) where
  message : String
  url : Url
  request_body : Option JsonValue
  status_code : Option Nat
  response_headers : Option Headers
  response_body : Option String
  is_retryable : Bool
  data : Option JsonValue
  cause : Option ε

structure TypeValidationContext where
  field : Option String
  entity_name : Option String
  entity_id : Option String

inductive ProviderError (Url ε : Type) where
  | ApiCall (error : ApiCallError Url ε)
  | EmptyResponseBody (message : String)
  | InvalidArgument (argument message : String) (cause : Option ε)
  | InvalidPrompt (message : String) (prompt : Option JsonValue) (cause : Option ε)
  | InvalidResponseData (message : String) (data : JsonValue)
  | JsonParse (text : String) (cause : ε)
  | LoadApiKey (message : String)
  | LoadSetting (message : String)
  | NoContentGenerated (message : String)
  | NoSuchModel (provider : Option String) (model_id : String) (model_kind : ModelKind) (message : String)
  | NoSuchProviderReference (provider : String) (reference : List (String × String)) (message : String)
  | TooManyEmbeddingValues (provider : String) (model_id : ModelId) (max_embeddings_per_call value_count : Nat)
  | TypeValidation (value : JsonValue) (context : Option TypeValidationContext) (cause : ε)
  | UnsupportedFunctionality (functionality message : String)
  | Cancelled
  | Other (error : ε)

structure NoObjectGeneratedDetails (ε : Type) where
  message : String
  text : Option String
  response : ResponseMetadata
  usage : Usage
  finish_reason : FinishReason
  cause : Option ε

structure NoSuchProviderDetails where
  provider_id : String
  available_providers : List String
  model_id : String
  model_kind : ModelKind

/-- The errors of the core. Times are in nanoseconds. -/
inductive Error (Url ε : Type) where
  | Provider (error : ProviderError Url ε)
  | Retry (reason : RetryLoop.RetryReason) (attempts : Nat) (errors : List (ProviderError Url ε))
  | Timeout (scope : TimeoutScope) (elapsed : Nat)
  | Cancelled
  | InvalidArgument (argument message : String)
  | InvalidPrompt (message : String)
  | MessageConversion (message : String) (original_message : Message)
  | Download (url : Url) (status_code : Option Nat) (cause : Option ε)
  | InvalidDataContent (message : String) (cause : Option ε)
  | NoSuchTool (tool_name : ToolName) (available_tools : List ToolName)
  | InvalidToolInput (tool_name : ToolName) (tool_input : String) (cause : ε)
  | ToolCallRepair (original : Error Url ε) (cause : ε)
  | ToolChoiceViolation (expected actual : ToolName)
  | ToolCallNotFoundForApproval (tool_call_id : ToolCallId) (approval_id : ApprovalId)
  | ToolChoiceNotSatisfied (expected : Option ToolName)
  | InvalidToolApproval (approval_id : ApprovalId) (message : String)
  | NoObjectGenerated (details : NoObjectGeneratedDetails ε)
  | NoOutputGenerated
  | NoImageGenerated (responses : List ResponseMetadata)
  | NoSpeechGenerated (responses : List ResponseMetadata)
  | NoTranscriptGenerated (responses : List ResponseMetadata)
  | NoTranslationGenerated (response : ResponseMetadata)
  | NoVideoGenerated (responses : List ResponseMetadata)
  | NoSuchProvider (details : NoSuchProviderDetails)
  | NoDefaultRegistry (model_id : String)
  | InvalidStreamPart (message : String)
  | Stream (error : StreamError)
  | Mcp (error : ε)
  | Other (error : ε)

structure TelemetryOptions where
  record_inputs : Bool
  record_outputs : Bool

def REDACTED : String := "error details omitted by telemetry recording settings"

def response (response : ResponseMetadata) (options : TelemetryOptions) : ResponseMetadata :=
  if !options.record_outputs then { response with body := none } else response

section
variable {Url ε : Type} [UrlSetters Url] (boxed : String → ε)

def redact_provider (error : ProviderError Url ε) (options : TelemetryOptions) : ProviderError Url ε :=
  match error with
  | .ApiCall error => .ApiCall {
      message := REDACTED
      url := if options.record_inputs then error.url else set_fragment (set_query error.url none) none
      request_body := if options.record_inputs then error.request_body else none
      status_code := error.status_code
      response_headers := error.response_headers
      response_body := if options.record_outputs then error.response_body else none
      is_retryable := error.is_retryable
      data := if options.record_outputs then error.data else none
      cause := none }
  | .EmptyResponseBody _ => .EmptyResponseBody "empty response body"
  | .InvalidArgument argument _ _ => .InvalidArgument argument REDACTED none
  | .InvalidPrompt _ prompt _ => .InvalidPrompt REDACTED (if options.record_inputs then prompt else none) none
  | .InvalidResponseData _ data => .InvalidResponseData REDACTED (if options.record_outputs then data else .null)
  | .JsonParse _ _ => .JsonParse REDACTED (boxed REDACTED)
  | .TypeValidation _ _ _ => .TypeValidation .null none (boxed REDACTED)
  | .LoadApiKey _ => .LoadApiKey REDACTED
  | .LoadSetting _ => .LoadSetting REDACTED
  | .NoContentGenerated _ => .NoContentGenerated "no content generated"
  | .NoSuchModel provider model_id model_kind _ => .NoSuchModel provider model_id model_kind REDACTED
  | .NoSuchProviderReference provider reference _ =>
    .NoSuchProviderReference provider (if !options.record_inputs then [] else reference) REDACTED
  | .TooManyEmbeddingValues provider model_id max_embeddings_per_call value_count =>
    .TooManyEmbeddingValues provider model_id max_embeddings_per_call value_count
  | .UnsupportedFunctionality functionality _ => .UnsupportedFunctionality functionality REDACTED
  | .Cancelled => .Cancelled
  | .Other _ => .Other (boxed REDACTED)

def redact_error (error : Error Url ε) (options : TelemetryOptions) : Error Url ε :=
  match error with
  | .Provider error => .Provider (redact_provider boxed error options)
  | .Retry reason attempts errors => .Retry reason attempts (errors.map (redact_provider boxed · options))
  | .Timeout scope elapsed => .Timeout scope elapsed
  | .Cancelled => .Cancelled
  | .InvalidArgument argument _ => .InvalidArgument argument REDACTED
  | .InvalidPrompt _ => .InvalidPrompt REDACTED
  | .MessageConversion _ _ => .MessageConversion REDACTED (.User (.Text REDACTED) none)
  | .Download url status_code _ =>
    let url := if !options.record_inputs then
      set_password (set_username (set_fragment (set_query (set_path url "/") none) none) "") none else url
    .Download url status_code none
  | .InvalidDataContent _ _ => .InvalidDataContent REDACTED none
  | .NoSuchTool tool_name available_tools => .NoSuchTool tool_name available_tools
  | .InvalidToolInput tool_name tool_input _ =>
    .InvalidToolInput tool_name (if options.record_inputs && options.record_outputs then tool_input else REDACTED)
      (boxed REDACTED)
  | .ToolCallRepair original _ => .ToolCallRepair (redact_error original options) (boxed REDACTED)
  | .ToolChoiceViolation expected actual => .ToolChoiceViolation expected actual
  | .ToolCallNotFoundForApproval tool_call_id approval_id => .ToolCallNotFoundForApproval tool_call_id approval_id
  | .ToolChoiceNotSatisfied expected => .ToolChoiceNotSatisfied expected
  | .InvalidToolApproval approval_id _ => .InvalidToolApproval approval_id REDACTED
  | .NoObjectGenerated details => .NoObjectGenerated {
      message := REDACTED
      text := if options.record_outputs then details.text else none
      response := response details.response options
      usage := details.usage
      finish_reason := details.finish_reason
      cause := none }
  | .NoOutputGenerated => .NoOutputGenerated
  | .NoImageGenerated responses => .NoImageGenerated (responses.map (response · options))
  | .NoSpeechGenerated responses => .NoSpeechGenerated (responses.map (response · options))
  | .NoTranscriptGenerated responses => .NoTranscriptGenerated (responses.map (response · options))
  | .NoTranslationGenerated metadata => .NoTranslationGenerated (response metadata options)
  | .NoVideoGenerated responses => .NoVideoGenerated (responses.map (response · options))
  | .NoSuchProvider details => .NoSuchProvider details
  | .NoDefaultRegistry model_id => .NoDefaultRegistry model_id
  | .InvalidStreamPart _ => .InvalidStreamPart REDACTED
  | .Stream error => .Stream { error with message := REDACTED, data := none }
  | .Mcp _ => .Mcp (boxed REDACTED)
  | .Other _ => .Other (boxed REDACTED)

end

/-! ### Errors with one shape -/

section
variable {Url ε : Type}

def ResponseAlike (metadata metadata' : ResponseMetadata) : Prop :=
  ∃ body, metadata' = { metadata with body }

/--
Provider errors of one constructor that differ in content only: messages,
prompts, texts, bodies, attached data, references and causes.
-/
inductive ProviderAlike : ProviderError Url ε → ProviderError Url ε → Prop
  | same (error) : ProviderAlike error error
  | ApiCall (error : ApiCallError Url ε) (message request_body response_body data cause) :
      ProviderAlike (.ApiCall error) (.ApiCall { error with message, request_body, response_body, data, cause })
  | EmptyResponseBody (message message') : ProviderAlike (.EmptyResponseBody message) (.EmptyResponseBody message')
  | InvalidArgument (argument message message' cause cause') :
      ProviderAlike (.InvalidArgument argument message cause) (.InvalidArgument argument message' cause')
  | InvalidPrompt (message message' prompt prompt' cause cause') :
      ProviderAlike (.InvalidPrompt message prompt cause) (.InvalidPrompt message' prompt' cause')
  | InvalidResponseData (message message' data data') :
      ProviderAlike (.InvalidResponseData message data) (.InvalidResponseData message' data')
  | JsonParse (text text' cause cause') : ProviderAlike (.JsonParse text cause) (.JsonParse text' cause')
  | LoadApiKey (message message') : ProviderAlike (.LoadApiKey message) (.LoadApiKey message')
  | LoadSetting (message message') : ProviderAlike (.LoadSetting message) (.LoadSetting message')
  | NoContentGenerated (message message') : ProviderAlike (.NoContentGenerated message) (.NoContentGenerated message')
  | NoSuchModel (provider model_id model_kind message message') :
      ProviderAlike (.NoSuchModel provider model_id model_kind message)
        (.NoSuchModel provider model_id model_kind message')
  | NoSuchProviderReference (provider reference reference' message message') :
      ProviderAlike (.NoSuchProviderReference provider reference message)
        (.NoSuchProviderReference provider reference' message')
  | TypeValidation (value value' context context' cause cause') :
      ProviderAlike (.TypeValidation value context cause) (.TypeValidation value' context' cause')
  | UnsupportedFunctionality (functionality message message') :
      ProviderAlike (.UnsupportedFunctionality functionality message)
        (.UnsupportedFunctionality functionality message')
  | Other (error error') : ProviderAlike (.Other error) (.Other error')

/-- Errors of one constructor that differ in content only. `urls` relates what two downloads were after. -/
inductive Alike (urls : Url → Url → Prop) : Error Url ε → Error Url ε → Prop
  | same (error) : Alike urls error error
  | Provider {error error'} (alike : ProviderAlike error error') : Alike urls (.Provider error) (.Provider error')
  | Retry (reason attempts) {errors errors'} (alike : List.Forall₂ ProviderAlike errors errors') :
      Alike urls (.Retry reason attempts errors) (.Retry reason attempts errors')
  | InvalidArgument (argument message message') :
      Alike urls (.InvalidArgument argument message) (.InvalidArgument argument message')
  | InvalidPrompt (message message') : Alike urls (.InvalidPrompt message) (.InvalidPrompt message')
  | MessageConversion (message message' original_message original_message') :
      Alike urls (.MessageConversion message original_message) (.MessageConversion message' original_message')
  | Download {url url'} (same : urls url url') (status_code cause cause') :
      Alike urls (.Download url status_code cause) (.Download url' status_code cause')
  | InvalidDataContent (message message' cause cause') :
      Alike urls (.InvalidDataContent message cause) (.InvalidDataContent message' cause')
  | InvalidToolInput (tool_name tool_input tool_input' cause cause') :
      Alike urls (.InvalidToolInput tool_name tool_input cause) (.InvalidToolInput tool_name tool_input' cause')
  | ToolCallRepair {original original'} (alike : Alike urls original original') (cause cause') :
      Alike urls (.ToolCallRepair original cause) (.ToolCallRepair original' cause')
  | InvalidToolApproval (approval_id message message') :
      Alike urls (.InvalidToolApproval approval_id message) (.InvalidToolApproval approval_id message')
  | NoObjectGenerated (details : NoObjectGeneratedDetails ε) (message text cause) {response}
      (alike : ResponseAlike details.response response) :
      Alike urls (.NoObjectGenerated details) (.NoObjectGenerated { details with message, text, response, cause })
  | NoImageGenerated {responses responses'} (alike : List.Forall₂ ResponseAlike responses responses') :
      Alike urls (.NoImageGenerated responses) (.NoImageGenerated responses')
  | NoSpeechGenerated {responses responses'} (alike : List.Forall₂ ResponseAlike responses responses') :
      Alike urls (.NoSpeechGenerated responses) (.NoSpeechGenerated responses')
  | NoTranscriptGenerated {responses responses'} (alike : List.Forall₂ ResponseAlike responses responses') :
      Alike urls (.NoTranscriptGenerated responses) (.NoTranscriptGenerated responses')
  | NoTranslationGenerated {metadata metadata'} (alike : ResponseAlike metadata metadata') :
      Alike urls (.NoTranslationGenerated metadata) (.NoTranslationGenerated metadata')
  | NoVideoGenerated {responses responses'} (alike : List.Forall₂ ResponseAlike responses responses') :
      Alike urls (.NoVideoGenerated responses) (.NoVideoGenerated responses')
  | InvalidStreamPart (message message') : Alike urls (.InvalidStreamPart message) (.InvalidStreamPart message')
  | Stream (error : StreamError) (message data) : Alike urls (.Stream error) (.Stream { error with message, data })
  | Mcp (error error') : Alike urls (.Mcp error) (.Mcp error')
  | Other (error error') : Alike urls (.Other error) (.Other error')

end

section
variable {Url ε : Type} [UrlSetters Url] {options : TelemetryOptions}

/-- URLs that differ in their path, query, fragment and credentials only. -/
def SameSite (url url' : Url) : Prop :=
  (components url).scheme = (components url').scheme ∧ (components url).host = (components url').host ∧
    (components url).port = (components url').port

def SamePathKind (url url' : Url) : Prop :=
  (components url).path.cannot_be_a_base = (components url').path.cannot_be_a_base

theorem components_cleared [LawfulUrlSetters Url] (url : Url) :
    components (set_password (set_username (set_fragment (set_query (set_path url "/") none) none) "") none) =
      { scheme := (components url).scheme, username := "", password := none, host := (components url).host,
        port := (components url).port, path := (components url).path.root, query := none, fragment := none } := by
  have path := LawfulUrlSetters.components_set_path url
  have query := LawfulUrlSetters.components_set_query (set_path url "/") (by simp [path])
  have fragment := LawfulUrlSetters.components_set_fragment (set_query (set_path url "/") none)
    (by simp [query,path])
  simp only [LawfulUrlSetters.components_set_password,LawfulUrlSetters.components_set_username,fragment,query,path]

theorem response_eq (off : options.record_outputs = false) {metadata metadata' : ResponseMetadata}
    (alike : ResponseAlike metadata metadata') : response metadata options = response metadata' options := by
  obtain ⟨_,rfl⟩ := alike
  simp [response,off]

theorem responses_eq (off : options.record_outputs = false) {responses responses' : List ResponseMetadata}
    (alike : List.Forall₂ ResponseAlike responses responses') :
    responses.map (response · options) = responses'.map (response · options) := by
  induction alike with
  | nil => rfl
  | cons head _ ih => rw [List.map_cons,List.map_cons,response_eq off head,ih]

variable (boxed : String → ε)

theorem redact_provider_eq (inputs : options.record_inputs = false) (outputs : options.record_outputs = false)
    {error error' : ProviderError Url ε} (alike : ProviderAlike error error') :
    redact_provider boxed error options = redact_provider boxed error' options := by
  cases alike <;> simp [redact_provider,inputs,outputs]

theorem redact_providers_eq (inputs : options.record_inputs = false) (outputs : options.record_outputs = false)
    {errors errors' : List (ProviderError Url ε)} (alike : List.Forall₂ ProviderAlike errors errors') :
    errors.map (redact_provider boxed · options) = errors'.map (redact_provider boxed · options) := by
  induction alike with
  | nil => rfl
  | cons head _ ih => rw [List.map_cons,List.map_cons,redact_provider_eq boxed inputs outputs head,ih]

theorem redact_download_eq [LawfulUrlSetters Url] (inputs : options.record_inputs = false) {url url' : Url}
    (same : SameSite url url') (kind : SamePathKind url url') (status_code : Option Nat) (cause cause' : Option ε) :
    redact_error boxed (.Download url status_code cause) options =
      redact_error boxed (.Download url' status_code cause') options := by
  obtain ⟨scheme,host,port⟩ := same
  have root := UrlPath.root_eq_iff.mpr kind
  have cleared : set_password (set_username (set_fragment (set_query (set_path url "/") none) none) "") none =
      set_password (set_username (set_fragment (set_query (set_path url' "/") none) none) "") none := by
    apply LawfulUrlSetters.components_injective
    simp only [components_cleared,scheme,host,port,root]
  simp [redact_error,inputs,cleared]

theorem redact_error_hides [LawfulUrlSetters Url] (inputs : options.record_inputs = false)
    (outputs : options.record_outputs = false) {error error' : Error Url ε}
    (alike : Alike (fun url url' => SameSite url url' ∧ SamePathKind url url') error error') :
    redact_error boxed error options = redact_error boxed error' options := by
  induction alike with
  | Provider alike => simp only [redact_error,redact_provider_eq boxed inputs outputs alike]
  | Retry reason attempts alike => simp only [redact_error,redact_providers_eq boxed inputs outputs alike]
  | Download same status_code cause cause' =>
    exact redact_download_eq boxed inputs same.1 same.2 status_code cause cause'
  | ToolCallRepair alike cause cause' ih => simp only [redact_error,ih]
  | InvalidToolInput => simp [redact_error,inputs]
  | NoObjectGenerated _ _ _ _ alike => simp [redact_error,outputs,response_eq outputs alike]
  | NoTranslationGenerated alike => simp only [redact_error,response_eq outputs alike]
  | NoImageGenerated alike => simp only [redact_error,responses_eq outputs alike]
  | NoSpeechGenerated alike => simp only [redact_error,responses_eq outputs alike]
  | NoTranscriptGenerated alike => simp only [redact_error,responses_eq outputs alike]
  | NoVideoGenerated alike => simp only [redact_error,responses_eq outputs alike]
  -- the copies of the others are made of kept fields and fixed texts
  | _ => rfl

end

def signed_download : UrlComponents :=
  ⟨"https","ada",some "secret",some "files.example",none,.Segments "/a.png",some "sig=1",none⟩

def plain_download : UrlComponents :=
  ⟨"https","",none,some "files.example",none,.Segments "/b/c.png",none,some "top"⟩

theorem redact_error_hides_download :
    redact_error id (.ToolCallRepair (.Download signed_download (some 403) (some "denied")) "no tool")
        { record_inputs := false, record_outputs := false } =
      redact_error id (.ToolCallRepair (.Download plain_download (some 403) none) "bad input")
        { record_inputs := false, record_outputs := false } :=
  redact_error_hides id rfl rfl
    (.ToolCallRepair (.Download ⟨⟨rfl,rfl,rfl⟩,rfl⟩ (some 403) (some "denied") none) "no tool" "bad input")

/-- `mailto:a` and `mailto:/a` differ in their path only, and their copies differ. -/
theorem path_kind_kept :
    ¬ ∀ error error' : Error UrlComponents String, Alike SameSite error error' →
      redact_error id error { record_inputs := false, record_outputs := false } =
        redact_error id error' { record_inputs := false, record_outputs := false } := by
  intro hides
  have copies := hides (.Download ⟨"mailto","",none,none,none,.Opaque "a",none,none⟩ none none)
    (.Download ⟨"mailto","",none,none,none,.Segments "/a",none,none⟩ none none) (.Download ⟨rfl,rfl,rfl⟩ none none none)
  simp [redact_error,set_path,set_query,set_fragment,set_username,set_password,UrlPath.root] at copies

end Ferrin.Telemetry
