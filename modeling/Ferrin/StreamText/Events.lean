import Ferrin.GenerateText.Run

/-!
The events of a streamed step, and the parts of the stream that turn into them
one for one.
-/
namespace Ferrin.StreamText
open Ferrin.GenerateText

inductive StreamEvent where
  | StartStep (warnings : List Warning)
  | TextStart (id : PartId) (provider_metadata : Option ProviderMetadata)
  | TextDelta (id : PartId) (text : String) (provider_metadata : Option ProviderMetadata)
  | TextEnd (id : PartId) (provider_metadata : Option ProviderMetadata)
  | ReasoningStart (id : PartId) (provider_metadata : Option ProviderMetadata)
  | ReasoningDelta (id : PartId) (text : String) (provider_metadata : Option ProviderMetadata)
  | ReasoningEnd (id : PartId) (provider_metadata : Option ProviderMetadata)
  | ReasoningFile (file : GeneratedFile)
  | File (file : GeneratedFile)
  | Source (source : Source)
  | Custom (kind : String) (provider_metadata : Option ProviderMetadata)
  | ToolInputStart (id : ToolCallId) (tool_name : ToolName) (provider_executed : Bool) (dynamic : Bool)
      (title : Option String) (provider_metadata : Option ProviderMetadata)
  | ToolInputDelta (id : ToolCallId) (delta : String) (provider_metadata : Option ProviderMetadata)
  | ToolInputEnd (id : ToolCallId) (provider_metadata : Option ProviderMetadata)
  | ToolCall (call : ParsedToolCall)
  | ToolResult (result : ToolResult)
  | ToolError (error : ToolExecutionError)
  | ToolApprovalRequest (request : ToolApprovalRequestContent)
  | ToolApprovalResponse (response : ToolApprovalResponseContent)
  | ToolOutputDenied (denied : ToolOutputDenied)
  | FinishStep (finish_reason : FinishReason)
  | RetryAttempt (attempt : Nat) (warnings : List Warning)
  | Raw (raw_value : JsonValue)
  deriving DecidableEq

def content_event : StepContent → Option StreamEvent
  | .ToolResult result => some (.ToolResult result)
  | .ToolError error => some (.ToolError error)
  | .ToolOutputDenied denied => some (.ToolOutputDenied denied)
  | .ToolApprovalRequest request => some (.ToolApprovalRequest request)
  | .ToolApprovalResponse response => some (.ToolApprovalResponse response)
  | _ => none

/-- The parts that are held back while a retry can still discard the attempt. -/
def is_tool_part : StreamEvent → Bool
  | .ToolInputStart .. | .ToolInputDelta .. | .ToolInputEnd .. | .ToolCall _ | .ToolApprovalRequest _
  | .ToolApprovalResponse _ | .ToolResult _ | .ToolError _ => true
  | _ => false

/-! ### Text in progress -/

inductive Kind where
  | text
  | reasoning
  deriving DecidableEq

def Kind.name : Kind → String
  | .text => "text"
  | .reasoning => "reasoning"

def Kind.start (kind : Kind) (provider_metadata : Option ProviderMetadata) : StepContent :=
  match kind with
  | .text => .Text "" provider_metadata
  | .reasoning => .Reasoning "" provider_metadata

def starts : StreamEvent → Option (Kind × PartId)
  | .TextStart id _ => some (.text,id)
  | .ReasoningStart id _ => some (.reasoning,id)
  | _ => none

def ends : StreamEvent → Option (Kind × PartId)
  | .TextEnd id _ => some (.text,id)
  | .ReasoningEnd id _ => some (.reasoning,id)
  | _ => none

/-- Events within a step, which neither begin it nor end it. -/
def isInner : StreamEvent → Bool
  | .StartStep _ | .RetryAttempt .. | .FinishStep _ => false
  | _ => true

def isProse : StepContent → Bool
  | .Text .. | .Reasoning .. => true
  | _ => false

def extend (delta : Option String) (metadata : Option ProviderMetadata) : StepContent → StepContent
  | .Text text provider_metadata => .Text (text ++ delta.getD "") (metadata.or provider_metadata)
  | .Reasoning text provider_metadata => .Reasoning (text ++ delta.getD "") (metadata.or provider_metadata)
  | part => part

structure Open (ν : Type) where
  text : List (PartId × ν)
  reasoning : List (PartId × ν)

namespace Open
variable {ν : Type}

def empty : Open ν := ⟨[],[]⟩

def ids (o : Open ν) : Kind → List (PartId × ν)
  | .text => o.text
  | .reasoning => o.reasoning

def set (o : Open ν) (kind : Kind) (ids : List (PartId × ν)) : Open ν :=
  match kind with
  | .text => { o with text := ids }
  | .reasoning => { o with reasoning := ids }

def lookup (o : Open ν) (kind : Kind) (id : PartId) : Option ν := (o.ids kind).lookup id

def put (o : Open ν) (kind : Kind) (id : PartId) (value : ν) : Open ν := o.set kind (Assoc.put (o.ids kind) id value)

def remove (o : Open ν) (kind : Kind) (id : PartId) : Open ν := o.set kind (Assoc.remove (o.ids kind) id)

theorem lookup_put (o : Open ν) (kind other : Kind) (id key : PartId) (value : ν) :
    (o.put kind id value).lookup other key = if other = kind ∧ key = id then some value else o.lookup other key := by
  cases kind <;> cases other <;> simp [put,lookup,set,ids,Assoc.lookup_put]

theorem lookup_remove (o : Open ν) (kind other : Kind) (id key : PartId) :
    (o.remove kind id).lookup other key = if other = kind ∧ key = id then none else o.lookup other key := by
  cases kind <;> cases other <;> simp [remove,lookup,set,ids,Assoc.lookup_remove]

@[simp] theorem lookup_empty (kind : Kind) (id : PartId) : (empty : Open ν).lookup kind id = none := by
  cases kind <;> rfl

end Open

end Ferrin.StreamText
