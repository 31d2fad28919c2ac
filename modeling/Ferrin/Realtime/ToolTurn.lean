import Ferrin.Json
import Ferrin.Library.Assoc

/-!
The tool calls of the current response of a realtime session. A follow-up is due
once the response is done and every call in it has an output.
-/
namespace Ferrin.Realtime
open Ferrin.Assoc

/-- The sets of call ids are lists without repetition. -/
structure ToolTurn where
  in_response : List String
  submitted : List String
  closed : Bool
  names : List (String × String)
  deriving DecidableEq

namespace ToolTurn

def default : ToolTurn := ⟨[],[],false,[]⟩

def record_name (t : ToolTurn) (call_id name : String) : ToolTurn := { t with names := put t.names call_id name }

def call_started (t : ToolTurn) (call_id name : String) : ToolTurn :=
  { t with in_response := t.in_response.insert call_id }.record_name call_id name

def name (t : ToolTurn) (call_id : String) : Option String := t.names.lookup call_id

def maybe_request_response (t : ToolTurn) : ToolTurn × Bool :=
  if ¬ t.closed ∨ t.in_response = [] then (t,false)
  else if ¬ ∀ id ∈ t.in_response, id ∈ t.submitted then (t,false)
  else ({ t with in_response := [],submitted := [],closed := false },true)

def output_submitted (t : ToolTurn) (call_id : String) : ToolTurn × Bool :=
  { t with submitted := t.submitted.insert call_id }.maybe_request_response

def response_done (t : ToolTurn) : ToolTurn × Bool :=
  if t.in_response = [] then (t,false) else { t with closed := true }.maybe_request_response

end ToolTurn

inductive ServerEvent where
  | FunctionCallArgumentsDone (call_id name arguments : String)
  | ResponseDone
  | Other
  deriving DecidableEq

def ToolTurn.handle_event (from_str : String → Option JsonValue) (t : ToolTurn) : ServerEvent → ToolTurn × Bool
  | .FunctionCallArgumentsDone call_id name arguments =>
    let t := t.record_name call_id name
    (match from_str arguments with
      | some _ => t.call_started call_id name
      | none => t,false)
  | .ResponseDone => t.response_done
  | .Other => (t,false)

/-- A parser for examples. -/
def emptyObject (text : String) : Option JsonValue := if text = "\x7b\x7d" then some (.object []) else none

end Ferrin.Realtime
