import Ferrin.Google.Interactions.Output
import Ferrin.Stream.Driver

/-!
The state machine of the interactions stream. Steps are opened and closed by
index, several at a time; the parts of a step carry the id of its index.
-/
namespace Ferrin.Google.Interactions
open Ferrin.Stream

def content_parts (content : Content) (id : PartId) : List StreamPart :=
  match content with
  | .Text text metadata => [.TextStart id metadata,.text_delta id text,.TextEnd id metadata]
  | .Reasoning text metadata => [.ReasoningStart id metadata,.ReasoningDelta id text none,.ReasoningEnd id metadata]
  | .ToolCall call =>
    [.ToolInputStart call.tool_call_id call.tool_name call.provider_executed call.dynamic none call.provider_metadata,
      .ToolInputDelta call.tool_call_id call.input none,
      .ToolInputEnd call.tool_call_id none,
      .ToolCall call]
  | .ToolResult result => [.ToolResult result]
  | .File data media_type filename metadata => [.File data media_type filename metadata]
  | .Source source => [.Source source]
  | .Custom kind metadata => [.Custom kind metadata]
  | _ => []

structure OpenStep where
  step : JsonValue
  id : PartId
  text_open : Bool
  arguments : String

/-- The state, its maps as association lists. `generated` counts the ids taken from the generator. -/
structure State where
  aliases : List (String × String)
  open_steps : List (Nat × OpenStep)
  interaction : JsonValue
  terminal : Bool
  function : Bool
  emitted_sources : List String
  generated : Nat

def step_id (index : Nat) : PartId := "step-" ++ toString index

namespace State

def new (aliases : List (String × String)) : State := ⟨aliases,[],.object [],false,false,[],0⟩

def with_interaction (s : State) (interaction : JsonValue) : State := { s with interaction }

def interaction_id (s : State) : Option String := s.interaction.text "id"

abbrev Outcome := State × Except ProviderError (List StreamPart)

def bad (s : State) (message : String) : Outcome := (s,.error (bad_response message))

def created (s : State) (event : JsonValue) : Outcome :=
  let s := s.with_interaction (event.index "interaction")
  (s,.ok [.ResponseMetadata (nonempty s.interaction_id) none (s.interaction.text "model")])

def output_parts (id : PartId) : Bool → List Content → Bool × List StreamPart
  | text_open,[] => (text_open,[])
  | text_open,.Text text metadata :: rest =>
    let (opened,others) := output_parts id true rest
    (opened,(if text_open then [] else [.TextStart id metadata]) ++ .text_delta id text :: others)
  | text_open,content :: rest =>
    let (opened,others) := output_parts id text_open rest
    (opened,content_parts content id ++ others)

def insert (s : State) (index : Nat) (step : JsonValue) (text_open : Bool) : State :=
  { s with open_steps := s.open_steps ++ [(index,⟨step,step_id index,text_open,""⟩)] }

def took (s : State) (generated : Nat) : State := { s with generated }

def begin_step (config : Config) (s : State) (index : Nat) (step : JsonValue) (kind : String) : Outcome :=
  let id := step_id index
  let metadata := some (part_metadata config step s.interaction_id)
  if kind = "thought" then
    (s.insert index step false,
      .ok (.ReasoningStart id metadata :: (summary step).map fun text => .ReasoningDelta id text none))
  else if kind = "model_output" then
    match Interactions.step config s.generated step s.interaction_id s.aliases with
    | (generated,.error error) => (s.took generated,.error error)
    | (generated,.ok contents) =>
      let (text_open,parts) := output_parts id false contents
      ((s.took generated).insert index step text_open,.ok parts)
  else if kind = "function_call" then
    match step.text "id",step.text "name" with
    | none,_ => s.bad "interactions function call omitted id"
    | some _,none => s.bad "interactions function call omitted name"
    | some call_id,some name =>
      ({ s with function := true }.insert index step false,
        .ok [.ToolInputStart call_id name false false none metadata])
  else (s.insert index step false,.ok [])

def step_start (config : Config) (s : State) (event : JsonValue) : Outcome :=
  match (event.index "index").as_u64 with
  | none => s.bad "interactions step omitted index"
  | some index =>
    if (s.open_steps.lookup index).isSome then s.bad "interactions step opened twice"
    else
      let step := event.index "step"
      match step.text "type" with
      | none => s.bad "interactions step must be a typed object"
      | some kind => s.begin_step config index step kind

def update (s : State) (index : Nat) (opened : OpenStep) : State :=
  { s with open_steps := s.open_steps.map fun entry => if entry.1 = index then (index,opened) else entry }

def text_delta (s : State) (index : Nat) (opened : OpenStep) (delta : JsonValue) : Outcome :=
  (s.update index { opened with text_open := true },
    .ok ((if opened.text_open then [] else [.TextStart opened.id none]) ++
      [.text_delta opened.id ((delta.text "text").getD "")]))

def arguments_delta (s : State) (index : Nat) (opened : OpenStep) (delta : JsonValue) : Outcome :=
  let arguments := (delta.text "arguments").getD ""
  let step := match delta.get "signature" with
    | some signature => opened.step.assign "signature" signature
    | none => opened.step
  let fed := (s.update index { opened with step,arguments := opened.arguments ++ arguments },
    .ok [.ToolInputDelta ((opened.step.text "id").getD "") arguments none])
  match delta.get "arguments" with
  | none | some .null | some (.string _) => fed
  | some _ => s.bad "interactions arguments delta must be a string"

def block_delta (config : Config) (s : State) (opened : OpenStep) (delta : JsonValue) (kind : String) : Outcome :=
  let metadata := part_metadata config opened.step s.interaction_id
  let value := if isMedia kind then delta else delta.assign "type" (.string "text")
  match Interactions.block config s.generated value metadata with
  | (generated,.error error) => (s.took generated,.error error)
  | (generated,.ok contents) =>
    (s.took generated,.ok (contents.flatMap fun content =>
      match content with
      | .Text .. => []
      | content => content_parts content opened.id))

def merge (step delta : JsonValue) : JsonValue :=
  match step,delta with
  | .object target,.object fields =>
    .object (JsonObject.extend target (fields.filter fun field => field.1 ∉ ["type","id","name"]))
  | step,_ => step

def isAnnotation (kind : String) : Bool := kind ∈ ["text_annotation","text_annotation_delta"]

def feed (config : Config) (s : State) (index : Nat) (opened : OpenStep) (delta : JsonValue) (kind : String) : Outcome :=
  let step_kind := opened.step.text "type"
  if kind = "text" ∧ step_kind = some "model_output" then s.text_delta index opened delta
  else if kind = "thought_summary" ∧ step_kind = some "thought" then
    (s,.ok [.ReasoningDelta opened.id (((delta.index "content").text "text").getD "") none])
  else if kind = "thought_signature" ∧ step_kind = some "thought" then
    (s.update index { opened with step := opened.step.assign "signature" (delta.index "signature") },.ok [])
  else if kind = "arguments_delta" ∧ step_kind = some "function_call" then s.arguments_delta index opened delta
  else if (isMedia kind ∨ isAnnotation kind) ∧ step_kind = some "model_output" then
    s.block_delta config opened delta kind
  else if delta.index "type" = opened.step.index "type" then
    (s.update index { opened with step := merge opened.step delta },.ok [])
  else if kind ∈ ["text","thought_summary","thought_signature","arguments_delta"] ∨ isMedia kind then
    s.bad "interactions delta does not match its step"
  else (s,.ok [])

def step_delta (config : Config) (s : State) (event : JsonValue) : Outcome :=
  match (event.index "index").as_u64 with
  | none => s.bad "interactions delta omitted index"
  | some index =>
    match s.open_steps.lookup index with
    | none => s.bad "interactions delta before step start"
    | some opened =>
      let delta := event.index "delta"
      match delta.text "type" with
      | none => s.bad "interactions delta must be a typed object"
      | some kind => s.feed config index opened delta kind

def final_arguments (config : Config) (opened : OpenStep) : Option JsonValue :=
  if opened.arguments = "" then some (call_arguments opened.step) else config.parse_json opened.arguments

def end_call (config : Config) (s : State) (opened : OpenStep) (metadata : ProviderMetadata) : Outcome :=
  match final_arguments config opened with
  | none => s.bad "invalid interactions function arguments"
  | some arguments =>
    let step := opened.step.assign "arguments" arguments
    match Interactions.step config s.generated step s.interaction_id s.aliases with
    | (generated,.error error) => (s.took generated,.error error)
    | (generated,.ok contents) =>
      (s.took generated,.ok (.ToolInputEnd ((step.text "id").getD "") (some metadata) ::
        contents.filterMap fun content =>
          match content with
          | .ToolCall call => some (.ToolCall call)
          | _ => none))

def close (config : Config) (s : State) (opened : OpenStep) : Outcome :=
  let metadata := part_metadata config opened.step s.interaction_id
  let kind := (opened.step.text "type").getD ""
  if kind = "model_output" then
    (s,.ok (if opened.text_open then [.TextEnd opened.id (some metadata)] else []))
  else if kind = "thought" then (s,.ok [.ReasoningEnd opened.id (some metadata)])
  else if kind = "function_call" then s.end_call config opened metadata
  else
    match Interactions.step config s.generated opened.step s.interaction_id s.aliases with
    | (generated,.error error) => (s.took generated,.error error)
    | (generated,.ok contents) => (s.took generated,.ok (contents.flatMap (content_parts · opened.id)))

def step_stop (config : Config) (s : State) (event : JsonValue) : Outcome :=
  match (event.index "index").as_u64 with
  | none => s.bad "interactions stop omitted index"
  | some index =>
    match s.open_steps.lookup index with
    | none => s.bad "interactions stop before step start"
    | some opened => { s with open_steps := s.open_steps.filter (·.1 ≠ index) }.close config opened

def isFinalStatus (status : Option String) : Bool :=
  status ∈ ["completed","failed","cancelled","incomplete","requires_action"].map some

def completed (s : State) (event : JsonValue) : Outcome :=
  if s.open_steps ≠ [] then s.bad "interactions completed with open steps"
  else
    match event.index "interaction" with
    | .object interaction =>
      if isFinalStatus ((JsonObject.get interaction "status").bind JsonValue.as_str) then
        ({ s with interaction := .object interaction,terminal := true },.ok [])
      else s.bad "terminal interaction has invalid status"
    | _ => s.bad "terminal interaction omitted resource"

def isCompletion (kind : String) : Bool := kind ∈ ["interaction.completed","interaction.complete"]

/-- One event, before sources shown earlier are dropped. -/
def dispatch (config : Config) (s : State) (event : JsonValue) : Outcome :=
  match event.text "event_type" with
  | none => s.bad "interactions event must be a typed object"
  | some kind =>
    if kind = "interaction.created" then s.created event
    else if kind = "step.start" then s.step_start config event
    else if kind = "step.delta" then s.step_delta config event
    else if kind = "step.stop" then s.step_stop config event
    else if isCompletion kind then s.completed event
    else if kind = "error" then s.bad "google interactions stream reported an error"
    else (s,.ok [])

def retain : List String → List StreamPart → List String × List StreamPart
  | seen,[] => (seen,[])
  | seen,.Source source :: rest =>
    if key source ∈ seen then retain seen rest
    else
      let (seen,others) := retain (key source :: seen) rest
      (seen,.Source source :: others)
  | seen,part :: rest =>
    let (seen,others) := retain seen rest
    (seen,part :: others)

def event (config : Config) (s : State) (event : JsonValue) : Outcome :=
  match s.dispatch config event with
  | (s,.error error) => (s,.error error)
  | (s,.ok parts) =>
    let (emitted_sources,parts) := retain s.emitted_sources parts
    ({ s with emitted_sources },.ok parts)

def handle (config : Config) (s : State) (chunk : ParseResult JsonValue) (include_raw : Bool) : State × List StreamPart :=
  match chunk with
  | .Err error _ => (s,[.error error])
  | .Ok value raw =>
    let parts := if include_raw then [.Raw raw] else []
    match s.event config value with
    | (s,.ok events) => (s,parts ++ events)
    | (s,.error error) => (s,parts ++ [.error error])

def finish (config : Config) (s : State) : List StreamPart :=
  if s.terminal then
    [.Finish (Interactions.finish ((s.interaction.text "status").getD "completed") s.function)
      (usage (s.interaction.index "usage")) (some (response_metadata config s.interaction))]
  else [.error (bad_response "interactions stream ended before a terminal event")]

/-- `impl StreamMachine for State`. -/
def machine (config : Config) : StreamMachine State JsonValue where
  handle s chunk include_raw := some (s.handle config chunk include_raw)
  finish := finish config

end State

def isTerminal (event : JsonValue) : Bool :=
  match event.text "event_type" with
  | some kind => State.isCompletion kind || kind = "error"
  | none => false

def terminal_chunks : List (ParseResult JsonValue) → List (ParseResult JsonValue)
  | [] => []
  | .Ok value raw :: rest => .Ok value raw :: if isTerminal value then [] else terminal_chunks rest
  | .Err error raw :: rest => .Err error raw :: terminal_chunks rest

end Ferrin.Google.Interactions
