import Ferrin.StreamText.Events

/-!
The model call of a streamed step with its retries: parts are mapped to events,
events are sent or held back, and an error part may discard the attempt.
-/
namespace Ferrin.StreamText
open Ferrin.GenerateText Ferrin.Approval

inductive ErrorDecision where
  | Continue
  | Retry
  deriving DecidableEq

/-- The callback may answer differently at every attempt. -/
structure StreamConfig where
  include_raw_chunks : Bool
  stream_retries : Option Nat
  on_error : Option (Nat → StreamError → ErrorDecision)

structure ResponseMetadata where
  id : Option String
  timestamp : Option Int
  model_id : Option ModelId

structure AttemptState where
  warnings : List Warning
  response : ResponseMetadata
  open_ids : Open PartId
  open_text : List PartId
  open_reasoning : List PartId
  content : List StepContent
  part_index : List (PartId × Nat)
  tool_calls : List ParsedToolCall
  queued : List ParsedToolCall
  result_ids : Finset ToolCallId
  client_outputs : Nat
  denied : Nat
  buffer : List StreamEvent

def AttemptState.new : AttemptState := ⟨[],⟨none,none,none⟩,.empty,[],[],[],[],[],[],∅,0,0,[]⟩

structure Attempt where
  state : AttemptState
  attempt : Nat
  automatic_retries : Nat
  callback_retries : Nat
  started_step : Bool
  used_ids : List PartId
  sent : List StreamEvent

def Attempt.new (used_ids : List PartId) : Attempt := ⟨.new,0,0,0,false,used_ids,[]⟩

structure ModelCallEnd where
  finish_reason : FinishReason
  tool_calls : List ParsedToolCall
  queued : List ParsedToolCall
  result_ids : Finset ToolCallId
  client_outputs : Nat
  denied : Nat

/-! ### Part ids -/

def candidate (id : PartId) (n : Nat) : PartId := s!"{id}-{n}"

/-- The first free candidate from `n` on, among `fuel` of them. -/
def first_free (used : List PartId) (id : PartId) : (fuel n : Nat) → PartId
  | 0, n => candidate id n
  | fuel + 1, n => if candidate id n ∈ used then first_free used id fuel (n + 1) else candidate id n

/-- A call-unique part id, with a suffix on conflicts. As many candidates as ids in use are tried. -/
def reserve_part_id (used : List PartId) (id : PartId) : PartId :=
  if id ∈ used then first_free used id used.length 1 else id

namespace Attempt

def start_part (a : Attempt) (kind : Kind) (id : PartId) (provider_metadata : Option ProviderMetadata) :
    Attempt × PartId :=
  let mapped := reserve_part_id a.used_ids id
  ({ a with
    used_ids := mapped :: a.used_ids
    state := { a.state with
      content := a.state.content ++ [kind.start provider_metadata]
      part_index := Assoc.put a.state.part_index mapped a.state.content.length
      open_ids := a.state.open_ids.put kind id mapped } },mapped)

def update_part (a : Attempt) (kind : Kind) (id : PartId) (delta : Option String)
    (provider_metadata : Option ProviderMetadata) (ends : Bool) : Except Error (Attempt × PartId) :=
  match a.state.open_ids.lookup kind id with
  | none => .error (.InvalidStreamPart s!"{kind.name} part `{id}` is not open")
  | some mapped =>
    let content := match a.state.part_index.lookup mapped with
      | some index => a.state.content.modify index (extend delta provider_metadata)
      | none => a.state.content
    .ok ({ a with state := { a.state with
      content
      open_ids := if ends then a.state.open_ids.remove kind id else a.state.open_ids } },mapped)

def push (a : Attempt) (part : StepContent) : Attempt :=
  { a with state := { a.state with content := a.state.content ++ [part] } }

def map_tool_call (ctx : LoopContext) (inputs : StepInputs) (a : Attempt) (call : ToolCall) :
    Except Error (Attempt × List StreamEvent) := do
  let parsed := parse_tool_call inputs.parse call
  let state := { a.state with
    tool_calls := a.state.tool_calls ++ [parsed]
    content := a.state.content ++ [.ToolCall parsed] }
  if parsed.invalid then
    if parsed.provider_executed then return ({ a with state },[.ToolCall parsed])
    else return ({ a with state := { state with client_outputs := state.client_outputs + 1 } },
      [.ToolCall parsed,.ToolError (invalid_tool_error parsed)])
  else
    let runs := !parsed.provider_executed && (executable ctx parsed).isSome
    match ← resolve_call_approval ctx inputs.messages inputs.environment parsed with
    | none =>
      let queued := if runs then state.queued ++ [parsed] else state.queued
      return ({ a with state := { state with queued } },[.ToolCall parsed])
    | some approval =>
      let denied := match approval.response with
        | some response => if response.approved then state.denied else state.denied + 1
        | none => state.denied
      let queued := if !approval.blocked && runs then state.queued ++ [parsed] else state.queued
      return ({ a with state := { state with denied,queued } },
        [.ToolCall parsed,.ToolApprovalRequest approval.request] ++
          (approval.response.map .ToolApprovalResponse).toList)

def map_part (ctx : LoopContext) (inputs : StepInputs) (stream : StreamConfig) (a : Attempt) :
    StreamPart → Except Error (Attempt × List StreamEvent)
  | .ResponseMetadata id timestamp model_id =>
    let r := a.state.response
    .ok ({ a with state := { a.state with
      response := ⟨id.or r.id,timestamp.or r.timestamp,model_id.or r.model_id⟩ } },[])
  | .TextStart id provider_metadata =>
    let (a,mapped) := a.start_part .text id provider_metadata
    .ok (a,[.TextStart mapped provider_metadata])
  | .TextDelta id delta provider_metadata => do
    let (a,mapped) ← a.update_part .text id (some delta) provider_metadata false
    return (a,if delta = "" ∧ provider_metadata = none then [] else [.TextDelta mapped delta provider_metadata])
  | .TextEnd id provider_metadata => do
    let (a,mapped) ← a.update_part .text id none provider_metadata true
    return (a,[.TextEnd mapped provider_metadata])
  | .ReasoningStart id provider_metadata =>
    let (a,mapped) := a.start_part .reasoning id provider_metadata
    .ok (a,[.ReasoningStart mapped provider_metadata])
  | .ReasoningDelta id delta provider_metadata => do
    let (a,mapped) ← a.update_part .reasoning id (some delta) provider_metadata false
    return (a,if delta = "" ∧ provider_metadata = none then [] else [.ReasoningDelta mapped delta provider_metadata])
  | .ReasoningEnd id provider_metadata => do
    let (a,mapped) ← a.update_part .reasoning id none provider_metadata true
    return (a,[.ReasoningEnd mapped provider_metadata])
  | .ToolInputStart id tool_name provider_executed dynamic title provider_metadata =>
    let tool := inputs.parse.tools.get tool_name
    let dynamic := dynamic || tool.any (·.kind.is_dynamic)
    let title := title.or (tool.bind (·.title))
    .ok (a,[.ToolInputStart id tool_name provider_executed dynamic title provider_metadata])
  | .ToolInputDelta id delta provider_metadata => .ok (a,[.ToolInputDelta id delta provider_metadata])
  | .ToolInputEnd id provider_metadata => .ok (a,[.ToolInputEnd id provider_metadata])
  | .ToolCall call => map_tool_call ctx inputs a call
  | .ToolResult result =>
    let part := provider_tool_result ctx.execution_tools a.state.tool_calls result
    let a := { a with state := { a.state with result_ids := insert result.tool_call_id a.state.result_ids } }
    .ok (a.push part,(content_event part).toList)
  | .ToolApprovalRequest approval_id tool_call_id provider_metadata =>
    match findCall a.state.tool_calls tool_call_id with
    | none => .error (.ToolCallNotFoundForApproval tool_call_id approval_id)
    | some call =>
      let request := provider_approval_request approval_id call provider_metadata
      .ok (a.push (.ToolApprovalRequest request),[.ToolApprovalRequest request])
  | .File data media_type filename provider_metadata =>
    let file : GeneratedFile := ⟨data,media_type,filename,provider_metadata⟩
    .ok (a.push (.File file),[.File file])
  | .ReasoningFile data media_type provider_metadata =>
    let file : GeneratedFile := ⟨data,media_type,none,provider_metadata⟩
    .ok (a.push (.ReasoningFile file),[.ReasoningFile file])
  | .Source source => .ok (a.push (.Source source),[.Source source])
  | .Custom kind provider_metadata => .ok (a.push (.Custom kind provider_metadata),[.Custom kind provider_metadata])
  | .Raw raw_value => .ok (a,if stream.include_raw_chunks then [.Raw raw_value] else [])
  | .StreamStart _ | .Finish .. | .Error _ => .ok (a,[])

def send (a : Attempt) (event : StreamEvent) : Attempt := { a with sent := a.sent ++ [event] }

def send_tracked (a : Attempt) (event : StreamEvent) : Attempt :=
  let state := match event with
    | .TextStart id _ => { a.state with open_text := a.state.open_text ++ [id] }
    | .TextEnd id _ => { a.state with open_text := a.state.open_text.filter (· ≠ id) }
    | .ReasoningStart id _ => { a.state with open_reasoning := a.state.open_reasoning ++ [id] }
    | .ReasoningEnd id _ => { a.state with open_reasoning := a.state.open_reasoning.filter (· ≠ id) }
    | _ => a.state
  send { a with state } event

def emit (retries_possible : Bool) (a : Attempt) (event : StreamEvent) : Attempt :=
  if retries_possible && (is_tool_part event || !a.state.buffer.isEmpty) then
    { a with state := { a.state with buffer := a.state.buffer ++ [event] } }
  else a.send_tracked event

def flush_buffer (a : Attempt) : Attempt :=
  a.state.buffer.foldl send_tracked { a with state := { a.state with buffer := [] } }

def close_open_parts (a : Attempt) : Attempt :=
  let ends := a.state.open_text.map (StreamEvent.TextEnd · none) ++
    a.state.open_reasoning.map (StreamEvent.ReasoningEnd · none)
  ends.foldl send { a with state := { a.state with open_text := [],open_reasoning := [] } }

def emit_start_step (a : Attempt) : Attempt := send { a with started_step := true } (.StartStep a.state.warnings)

def emit_boundary (a : Attempt) (warnings : List Warning) : Attempt :=
  send { a with state := { a.state with warnings } } (.RetryAttempt a.attempt warnings)

end Attempt

inductive AttemptOutcome where
  | Finished (result : ModelCallEnd)
  | Retry

def StreamConfig.retries_possible (stream : StreamConfig) : Bool :=
  match stream.stream_retries with
  | some 0 => stream.on_error.isSome
  | some _ => true
  | none => false

/-- `StreamConfig::error_decision`. -/
def StreamConfig.error_decision (stream : StreamConfig) (attempt : Nat) (error : StreamError) : ErrorDecision :=
  match stream.on_error with
  | some callback => callback attempt error
  | none => .Continue

namespace Attempt

def automatic (stream : StreamConfig) (a : Attempt) : Bool := stream.stream_retries.any (a.automatic_retries < ·)

def callback_retry (stream : StreamConfig) (a : Attempt) (error : StreamError) : Bool :=
  !a.automatic stream && stream.stream_retries.isSome && stream.on_error.isSome &&
    stream.error_decision a.attempt error = .Retry && a.callback_retries < 1

def handle_stream_error (stream : StreamConfig) (a : Attempt) (error : StreamError) :
    Attempt × Except Error AttemptOutcome :=
  if a.automatic stream || a.callback_retry stream error then
    let a :=
      if a.automatic stream then { a with automatic_retries := a.automatic_retries + 1 }
      else { a with callback_retries := a.callback_retries + 1 }
    let a := close_open_parts { a with state := { a.state with buffer := [] } }
    ({ a with attempt := a.attempt + 1 },.ok .Retry)
  else (a.flush_buffer,.error (.Stream error))

def finish (inputs : StepInputs) (a : Attempt) (finish_reason : FinishReason) : Except Error ModelCallEnd := do
  check_tool_choice inputs.parse.tool_choice a.state.tool_calls
  return {
    finish_reason
    tool_calls := a.state.tool_calls
    queued := a.state.queued
    result_ids := a.state.result_ids
    client_outputs := a.state.client_outputs
    denied := a.state.denied }

def streamStartWarnings : StreamPart → List Warning
  | .StreamStart warnings => warnings
  | _ => []

def read_attempt (ctx : LoopContext) (inputs : StepInputs) (stream : StreamConfig) (a : Attempt)
    (pending_boundary : Bool) : List StreamPart → Attempt × Except Error AttemptOutcome
  | [] =>
    let a := if pending_boundary then a.emit_boundary [] else a
    (a.flush_buffer,.error (.InvalidStreamPart "the model stream ended without a finish part"))
  | part :: rest =>
    let a := if pending_boundary then a.emit_boundary (streamStartWarnings part) else a
    match part with
    | .StreamStart warnings =>
      read_attempt ctx inputs stream { a with state := { a.state with warnings } } false rest
    | part =>
      let a := if a.started_step then a else a.emit_start_step
      match part with
      | .Error error => a.handle_stream_error stream error
      | .Finish finish_reason _ _ =>
        let a := a.flush_buffer
        (a,.Finished <$> a.finish inputs finish_reason)
      | other =>
        match a.map_part ctx inputs stream other with
        | .error error => (a,.error error)
        | .ok (a,events) => read_attempt ctx inputs stream (events.foldl (emit stream.retries_possible) a) false rest

def read (ctx : LoopContext) (inputs : StepInputs) (stream : StreamConfig) (a : Attempt) (pending_boundary : Bool) :
    List (List StreamPart) → Attempt × Except Error ModelCallEnd
  | [] => (a,.error (.Other "the model call failed"))
  | parts :: later =>
    match read_attempt ctx inputs stream a pending_boundary parts with
    | (a,.error error) => (a,.error error)
    | (a,.ok (.Finished result)) => (a,.ok result)
    | (a,.ok .Retry) => read ctx inputs stream { a with state := .new } true later

end Attempt

end Ferrin.StreamText
