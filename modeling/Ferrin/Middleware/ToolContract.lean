import Ferrin.GenerateText.Inputs
import Ferrin.Library.Program
import Ferrin.Retry
import Ferrin.StreamText.Stage

/-!
Language model middleware and the tool restrictions that its layers share with
the loops. Every attempt of a model call has a contract of its own: each layer
narrows it to the options that it passes on, and the tool calls of the attempt
are parsed with what it leaves.
-/
namespace Ferrin.Middleware
open Ferrin.GenerateText Ferrin.StreamText Ferrin.Library

inductive ToolDefinition where
  | Function (name : ToolName)
  | Provider (id : String) (name : ToolName) (args : JsonObject)

def ToolDefinition.name : ToolDefinition → ToolName
  | .Function name | .Provider _ name _ => name

/-- `Tool::definition`, of what the model gets by its name only. -/
def definition (name : ToolName) (tool : Tool) : ToolDefinition :=
  match tool.kind with
  | .Function | .Dynamic => .Function name
  | .ProviderDefined id args | .ProviderExecuted id args _ => .Provider id name args

structure CallOptions where
  prompt : Prompt
  tools : List ToolDefinition
  tool_choice : Option ToolChoice

def CallOptions.names (options : CallOptions) : List ToolName := options.tools.map (·.name)

/-! ### The contract -/

structure Settings where
  names : List ToolName
  choice : Option ToolChoice

namespace Settings

/-- `ToolContract::new`. -/
def new (options : CallOptions) : Settings := ⟨options.names,options.tool_choice⟩

/-- `ToolContract::observe`. -/
def observe (settings : Settings) (options : CallOptions) : Settings where
  names := settings.names.filter fun name => options.tools.any (·.name == name)
  choice := options.tool_choice

/-- `ToolContract::apply`. -/
def apply (settings : Settings) (original : ToolSet) : ToolSet × Option ToolChoice :=
  let choice := match settings.choice with
    | some (.Tool tool_name) => if tool_name ∈ settings.names then some (.Tool tool_name) else none
    | some .Required => if settings.names = [] then none else some .Required
    | choice => choice
  (filter_active original (some settings.names),choice)

end Settings

/-- `StepInputs::refresh_tools`. -/
def refresh_tools (inputs : StepInputs) (contract : Settings) (original : ToolSet) : StepInputs :=
  let (tools,tool_choice) := contract.apply original
  { inputs with parse := { inputs.parse with tools,tool_choice } }

inductive CallKind where
  | Generate
  | Stream

/-- What a stream yields as it is read. A layer that still works on it may pass options on. -/
inductive StreamItem where
  | part (part : StreamPart)
  | observed (options : CallOptions)

abbrev CallResult : CallKind → Type
  | .Generate => GenerateResult
  | .Stream => List StreamItem

abbrev Outcome (kind : CallKind) : Type := Except ProviderError (CallResult kind)

/-- A call of the wrapped model that a layer makes on its own account. -/
structure ModelCall where
  kind : CallKind
  options : CallOptions

/-- What a layer asks for while it wraps a call: its continuation, or the wrapped model itself. -/
inductive WrapCall where
  | next (options : CallOptions)
  | model (call : ModelCall)

def WrapCall.kind (own : CallKind) : WrapCall → CallKind
  | .next _ => own
  | .model call => call.kind

/-- A layer, over the store `ω` of what the layers and the model keep between calls. -/
structure LanguageModelMiddleware (ω : Type) where
  transform_params : CallOptions → CallKind →
    Program ω ModelCall (fun call => Outcome call.kind) (Except ProviderError CallOptions)
  wrap_generate : CallOptions → Program ω WrapCall (fun call => Outcome (call.kind .Generate)) (Outcome .Generate)
  wrap_stream : CallOptions → Program ω WrapCall (fun call => Outcome (call.kind .Stream)) (Outcome .Stream)

def LanguageModelMiddleware.wrap {ω : Type} (layer : LanguageModelMiddleware ω) :
    (kind : CallKind) → CallOptions → Program ω WrapCall (fun call => Outcome (call.kind kind)) (Outcome kind)
  | .Generate => layer.wrap_generate
  | .Stream => layer.wrap_stream

structure WrappedLanguageModel (ω : Type) where
  layers : List (LanguageModelMiddleware ω)
  model : (kind : CallKind) → CallOptions → ω → ω × Outcome kind

section
variable {σ ω : Type} (observe : σ → CallOptions → σ)

/-- What a layer's own calls and its continuation do, when the wrapped model is `inner`. -/
def answer (inner : (kind : CallKind) → CallOptions → Stateful σ ω (Outcome kind)) (kind : CallKind) :
    (call : WrapCall) → Stateful σ ω (Outcome (call.kind kind))
  | .next options,s,w => inner kind options (observe s options) w
  | .model call,s,w => inner call.kind call.options s w

/-- `WrappedLanguageModel::do_generate` and `do_stream` of one layer around `inner`. -/
def wrapped (layer : LanguageModelMiddleware ω) (inner : (kind : CallKind) → CallOptions → Stateful σ ω (Outcome kind))
    (kind : CallKind) (options : CallOptions) : Stateful σ ω (Outcome kind) := fun s w =>
  match (layer.transform_params options kind).run (fun (call : ModelCall) => inner call.kind call.options) s w with
  | (s,w,.error error) => (s,w,.error error)
  | (s,w,.ok options) => (layer.wrap kind options).run (answer observe inner kind) (observe s options) w

def call (model : (kind : CallKind) → CallOptions → ω → ω × Outcome kind) :
    List (LanguageModelMiddleware ω) → (kind : CallKind) → CallOptions → Stateful σ ω (Outcome kind)
  | [] => fun kind options s w => (s,model kind options w)
  | layer :: layers => wrapped observe layer (call model layers)

/-- One attempt in a scope of its own, with what its observations lead to. -/
def attempt (start : σ) (wrapped : WrappedLanguageModel ω) (kind : CallKind) (options : CallOptions) (w : ω) :
    ω × Except ProviderError (CallResult kind × σ) :=
  match call observe wrapped.model wrapped.layers kind options start w with
  | (_,w,.error error) => (w,.error error)
  | (s,w,.ok result) => (w,.ok (result,s))

end

def log (observed : List CallOptions) (options : CallOptions) : List CallOptions := observed ++ [options]

section
variable {ω : Type} (wrapped : WrappedLanguageModel ω) (max_retries : Nat)

def call_model (kind : CallKind) (options : CallOptions) (w : ω) : ω × Except CallError (CallResult kind × Settings) :=
  retry max_retries (fun _ => attempt Settings.observe (.new options) wrapped kind options) w

end

inductive StepError where
  | Call (error : CallError)
  | Step (error : Error)

def options (prepared : PreparedStep) : CallOptions where
  prompt := prepared.prompt
  tools := prepared.inputs.parse.tools.map fun (name,tool) => definition name tool
  tool_choice := prepared.inputs.parse.tool_choice

section
variable {ω : Type} (ctx : LoopContext) (original : ToolSet) (wrapped : WrappedLanguageModel ω) (max_retries : Nat)

def run_step (prepared : PreparedStep) (duration_ms : ToolCallId → Nat) (pending_deferred : Finset ToolCallId) (w : ω) :
    ω × Except StepError StepResult :=
  match call_model wrapped max_retries .Generate (options prepared) w with
  | (w,.error error) => (w,.error (.Call error))
  | (w,.ok (result,contract)) =>
    match GenerateText.run_step ctx (refresh_tools prepared.inputs contract original) duration_ms result
      pending_deferred with
    | .error error => (w,.error (.Step error))
    | .ok step => (w,.ok step)

def refreshed_for (inputs : StepInputs) (contract : Settings) : StreamPart → StepInputs
  | .ToolCall _ => refresh_tools inputs contract original
  | _ => inputs

def read_attempt (stream : StreamConfig) (inputs : StepInputs) (contract : Settings) (a : Attempt)
    (pending_boundary : Bool) : List StreamItem → Attempt × Except Error AttemptOutcome
  | [] =>
    let a := if pending_boundary then a.emit_boundary [] else a
    (a.flush_buffer,.error (.InvalidStreamPart "the model stream ended without a finish part"))
  | .observed options :: rest => read_attempt stream inputs (contract.observe options) a pending_boundary rest
  | .part part :: rest =>
    let a := if pending_boundary then a.emit_boundary (Attempt.streamStartWarnings part) else a
    match part with
    | .StreamStart warnings =>
      read_attempt stream inputs contract { a with state := { a.state with warnings } } false rest
    | part =>
      let a := if a.started_step then a else a.emit_start_step
      match part with
      | .Error error => a.handle_stream_error stream error
      | .Finish finish_reason _ _ =>
        let a := a.flush_buffer
        (a,.Finished <$> a.finish (refresh_tools inputs contract original) finish_reason)
      | other =>
        let inputs := refreshed_for original inputs contract other
        match a.map_part ctx inputs stream other with
        | .error error => (a,.error error)
        | .ok (a,events) =>
          read_attempt stream inputs contract (events.foldl (Attempt.emit stream.retries_possible) a) false rest

def read (prepared : PreparedStep) (stream : StreamConfig) (inputs : StepInputs) (a : Attempt) (pending_boundary : Bool) :
    List ω → Attempt × Except StepError ModelCallEnd
  | [] => (a,.error (.Step (.Other "the model call failed")))
  | w :: later =>
    match (call_model wrapped max_retries .Stream (options prepared) w).2 with
    | .error error => (a,.error (.Call error))
    | .ok (items,contract) =>
      let inputs := refresh_tools inputs contract original
      match read_attempt ctx original stream inputs contract a pending_boundary items with
      | (a,.error error) => (a,.error (.Step error))
      | (a,.ok (.Finished result)) => (a,.ok result)
      | (a,.ok .Retry) => read prepared stream inputs { a with state := .new } true later

def stream_step (prepared : PreparedStep) (stage : StageContext) (pending_deferred : Finset ToolCallId)
    (stores : List ω) : Except StepError StepResult :=
  match read ctx original wrapped max_retries prepared stage.stream prepared.inputs (.new stage.used_part_ids) false
    stores with
  | (_,.error error) => .error error
  | (a,.ok result) =>
    match finish_step ctx prepared.inputs stage pending_deferred a.sent result with
    | .error error => .error (.Step error)
    | .ok step => .ok step

end

end Ferrin.Middleware
