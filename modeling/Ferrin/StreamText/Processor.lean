import Ferrin.StreamText.Events

/-!
The event processor: it accumulates the content of a step from the events of
the stream.
-/
namespace Ferrin.StreamText
open Ferrin.GenerateText

structure StepAccumulator where
  warnings : List Warning
  content : List StepContent
  parts : Open Nat

structure FinishedStep where
  content : List StepContent
  messages : List Message
  finish_reason : FinishReason

structure Processor where
  replay : List StepContent
  steps : List FinishedStep
  current : Option StepAccumulator

namespace StepAccumulator

def new (warnings : List Warning) : StepAccumulator := ⟨warnings,[],.empty⟩

def reset (s : StepAccumulator) (warnings : List Warning) : StepAccumulator :=
  { s with warnings,content := [],parts := .empty }

def start_part (s : StepAccumulator) (kind : Kind) (id : PartId) (metadata : Option ProviderMetadata) :
    StepAccumulator :=
  { s with content := s.content ++ [kind.start metadata],parts := s.parts.put kind id s.content.length }

def update_part (s : StepAccumulator) (kind : Kind) (id : PartId) (delta : Option String)
    (metadata : Option ProviderMetadata) (ends : Bool) : Except Error StepAccumulator :=
  match s.parts.lookup kind id with
  | none => .error (.InvalidStreamPart s!"{kind.name} part `{id}` not found")
  | some index =>
    if s.content[index]?.any isProse then
      .ok { s with
        content := s.content.modify index (extend delta metadata)
        parts := if ends then s.parts.remove kind id else s.parts }
    else .error (.InvalidStreamPart s!"{kind.name} part `{id}` does not refer to a {kind.name} part")

end StepAccumulator

namespace Processor

def new : Processor := ⟨[],[],none⟩

def push_content (p : Processor) (content : StepContent) : Processor :=
  match p.current with
  | some step => { p with current := some { step with content := step.content ++ [content] } }
  | none => { p with replay := p.replay ++ [content] }

def current_step (p : Processor) : Except Error StepAccumulator :=
  match p.current with
  | some step => .ok step
  | none => .error (.InvalidStreamPart "content event outside a step")

def start_part (p : Processor) (kind : Kind) (id : PartId) (metadata : Option ProviderMetadata) :
    Except Error Processor := do
  return { p with current := some ((← p.current_step).start_part kind id metadata) }

def update_part (p : Processor) (kind : Kind) (id : PartId) (delta : Option String)
    (metadata : Option ProviderMetadata) (ends : Bool) : Except Error Processor := do
  return { p with current := some (← (← p.current_step).update_part kind id delta metadata ends) }

def finish_step (ctx : LoopContext) (p : Processor) (finish_reason : FinishReason) : Except Error Processor :=
  match p.current with
  | none => .error (.InvalidStreamPart "finish-step without start-step")
  | some step =>
    let replay := if p.steps = [] then (replay_tool_message ctx.execution_tools p.replay).toList else []
    let messages := replay ++ to_response_messages ctx.tools step.content
    .ok { p with current := none,steps := p.steps ++ [⟨step.content,messages,finish_reason⟩] }

def handle (ctx : LoopContext) (p : Processor) : StreamEvent → Except Error Processor
  | .StartStep warnings => .ok { p with current := some (.new warnings) }
  | .RetryAttempt _ warnings => .ok { p with current := p.current.map (·.reset warnings) }
  | .TextStart id metadata => p.start_part .text id metadata
  | .TextDelta id text metadata => p.update_part .text id (some text) metadata false
  | .TextEnd id metadata => p.update_part .text id none metadata true
  | .ReasoningStart id metadata => p.start_part .reasoning id metadata
  | .ReasoningDelta id text metadata => p.update_part .reasoning id (some text) metadata false
  | .ReasoningEnd id metadata => p.update_part .reasoning id none metadata true
  | .ReasoningFile file => .ok (p.push_content (.ReasoningFile file))
  | .File file => .ok (p.push_content (.File file))
  | .Source source => .ok (p.push_content (.Source source))
  | .Custom kind metadata => .ok (p.push_content (.Custom kind metadata))
  | .ToolCall call => .ok (p.push_content (.ToolCall call))
  | .ToolResult result => .ok (if result.preliminary then p else p.push_content (.ToolResult result))
  | .ToolError error => .ok (p.push_content (.ToolError error))
  | .ToolApprovalRequest request => .ok (p.push_content (.ToolApprovalRequest request))
  | .ToolApprovalResponse response => .ok (p.push_content (.ToolApprovalResponse response))
  | .ToolOutputDenied denied => .ok (p.push_content (.ToolOutputDenied denied))
  | .FinishStep finish_reason => p.finish_step ctx finish_reason
  | .ToolInputStart .. | .ToolInputDelta .. | .ToolInputEnd .. | .Raw _ => .ok p

def process (ctx : LoopContext) (p : Processor) (events : List StreamEvent) : Except Error Processor :=
  events.foldlM (handle ctx) p

end Processor

end Ferrin.StreamText
