import Ferrin.Error

/-!
Tools and the output that the model receives for what they return.
-/
namespace Ferrin

inductive ToolKind where
  | Function
  | Dynamic
  | ProviderDefined (id : String) (args : JsonObject)
  | ProviderExecuted (id : String) (args : JsonObject) (supports_deferred_results : Bool)

namespace ToolKind

def is_provider_executed : ToolKind → Bool
  | .ProviderExecuted .. => true
  | _ => false

def is_dynamic : ToolKind → Bool
  | .Dynamic => true
  | _ => false

end ToolKind

/-- A failed execution. A timeout is a message like every other failure. -/
inductive ToolError where
  | Cancelled
  | Json (value : JsonValue)
  | Message (text : String)

structure ToolContext where
  tool_call_id : ToolCallId
  messages : List Message
  tools_context : Option JsonValue

/-- What one execution yields: the values on the way and the final output or failure. -/
structure ToolExecution where
  preliminary : List JsonValue
  output : Except ToolError JsonValue

inductive NeedsApproval where
  | Never
  | Always
  | Dynamic (function : JsonValue → ToolContext → Bool)

namespace NeedsApproval

def resolve (n : NeedsApproval) (input : JsonValue) (ctx : ToolContext) : Bool :=
  match n with
  | .Never => false
  | .Always => true
  | .Dynamic function => function input ctx

def is_declared : NeedsApproval → Bool
  | .Never => false
  | _ => true

end NeedsApproval

/-- A tool. Schemas are what they do: they accept a value, perhaps another one, or refuse it with a message. -/
structure Tool where
  kind : ToolKind
  title : Option String
  metadata : Option JsonObject
  validate_input : ToolName → JsonValue → Except String JsonValue
  validate_named_context : ToolName → Option JsonValue → Except String (Option JsonValue)
  needs_approval : NeedsApproval
  execute : Option (JsonValue → ToolContext → ToolExecution)
  to_model_output : Option (ToolCallId → JsonValue → JsonValue → ToolResultOutput)

def Tool.is_executable (tool : Tool) : Bool := tool.execute.isSome

abbrev ToolSet := List (ToolName × Tool)

namespace ToolSet

def get (tools : ToolSet) (name : ToolName) : Option Tool := tools.lookup name
def names (tools : ToolSet) : List ToolName := tools.map (·.1)

end ToolSet

inductive ErrorMode where
  | None
  | Json

def create_tool_model_output (tool : Option Tool) (tool_call_id : ToolCallId) (input output : JsonValue)
    (error_mode : ErrorMode) : ToolResultOutput :=
  match error_mode with
  | .Json => .error_json output
  | .None =>
    match tool.bind (·.to_model_output) with
    | some convert => convert tool_call_id input output
    | none =>
      match output with
      | .string text => .text text
      | other => .json other

end Ferrin
