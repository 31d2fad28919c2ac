import Ferrin.GenerateText.Step
import Ferrin.Library.Assoc
import Ferrin.Library.Result

/-!
Parsing, validation and repair of the tool calls of a model. A failure never
leaves the parser: the call is kept and marked invalid.
-/
namespace Ferrin.GenerateText
open Result (bind_ok)

inductive ToolChoice where
  | Auto
  | None
  | Required
  | Tool (tool_name : ToolName)

abbrev RefineToolInputs := List (ToolName × (JsonValue → Except Error JsonValue))

structure ParseContext where
  tools : ToolSet
  tool_choice : Option ToolChoice
  repair : Option (ToolCall → Error → Except String (Option ToolCall))
  refine : RefineToolInputs
  parse : String → Except String JsonValue
  from_str : String → Option JsonValue

/-- `char::is_whitespace`. -/
def is_whitespace (c : Char) : Bool :=
  let n := c.toNat
  (9 ≤ n ∧ n ≤ 13) ∨ n ∈ [0x20,0x85,0xA0,0x1680,0x2028,0x2029,0x202F,0x205F,0x3000] ∨ (0x2000 ≤ n ∧ n ≤ 0x200A)

def parse_raw_input (ctx : ParseContext) (call : ToolCall) : Except Error JsonValue :=
  if call.input.toList.all is_whitespace then .ok (.object [])
  else
    match ctx.parse call.input with
    | .ok value => .ok value
    | .error error => .error (.InvalidToolInput call.tool_name call.input error)

def refined (ctx : ParseContext) (name : ToolName) (input : JsonValue) : Except Error JsonValue :=
  match ctx.refine.lookup name with
  | some refine => refine input
  | none => .ok input

def violated (choice : Option ToolChoice) (name : ToolName) : Option ToolName :=
  match choice with
  | some (.Tool expected) => if expected = name then none else some expected
  | _ => none

def validated (call : ToolCall) (tool : Tool) (raw : JsonValue) : Except Error JsonValue :=
  if call.provider_executed ∨ tool.kind.is_provider_executed then .ok raw
  else
    match tool.validate_input call.tool_name raw with
    | .ok input => .ok input
    | .error error => .error (.InvalidToolInput call.tool_name call.input error)

def do_parse (ctx : ParseContext) (call : ToolCall) : Except Error ParsedToolCall :=
  match ctx.tools.get call.tool_name with
  | none =>
    if call.provider_executed ∧ call.dynamic then do
      let input ← refined ctx call.tool_name (← parse_raw_input ctx call)
      return ⟨call.tool_call_id,call.tool_name,input,true,true,false,none,none,none,call.provider_metadata⟩
    else .error (.NoSuchTool call.tool_name ctx.tools.names)
  | some tool =>
    match violated ctx.tool_choice call.tool_name with
    | some expected => .error (.ToolChoiceViolation expected call.tool_name)
    | none => do
      let input ← refined ctx call.tool_name (← validated call tool (← parse_raw_input ctx call))
      return {
        tool_call_id := call.tool_call_id
        tool_name := call.tool_name
        input
        provider_executed := call.provider_executed
        dynamic := call.dynamic || tool.kind.is_dynamic
        invalid := false
        error := none
        title := tool.title
        tool_metadata := tool.metadata
        provider_metadata := call.provider_metadata }

def repairable : Error → Bool
  | .NoSuchTool .. | .InvalidToolInput .. => true
  | _ => false

def try_parse (ctx : ParseContext) (call : ToolCall) : Except Error ParsedToolCall :=
  match do_parse ctx call with
  | .ok parsed => .ok parsed
  | .error error =>
    match ctx.repair with
    | none => .error error
    | some repair =>
      if repairable error then
        match repair call error with
        | .error cause => .error (.ToolCallRepair error cause)
        | .ok none => .error error
        | .ok (some repaired) => do_parse ctx repaired
      else .error error

def invalid_call (ctx : ParseContext) (call : ToolCall) (error : Error) : ParsedToolCall where
  tool_call_id := call.tool_call_id
  tool_name := call.tool_name
  input := (ctx.from_str call.input).getD (.string call.input)
  provider_executed := call.provider_executed
  dynamic := true
  invalid := true
  error := some error.to_string
  title := none
  tool_metadata := (ctx.tools.get call.tool_name).bind (·.metadata)
  provider_metadata := call.provider_metadata

def parse_tool_call (ctx : ParseContext) (call : ToolCall) : ParsedToolCall :=
  match try_parse ctx call with
  | .ok parsed => parsed
  | .error error => invalid_call ctx call error

def check_tool_choice (choice : Option ToolChoice) (calls : List ParsedToolCall) : Except Error Unit :=
  match choice with
  | some .Required => if calls = [] then .error (.ToolChoiceNotSatisfied none) else .ok ()
  | some (.Tool tool_name) =>
    if calls.any (·.tool_name == tool_name) then .ok () else .error (.ToolChoiceNotSatisfied (some tool_name))
  | _ => .ok ()

/-! ### What parsing promises -/

section
variable {ctx : ParseContext} {call : ToolCall} {parsed : ParsedToolCall}

theorem do_parse_ok (ok : do_parse ctx call = .ok parsed) : parsed.tool_call_id = call.tool_call_id ∧
    parsed.tool_name = call.tool_name ∧ parsed.provider_executed = call.provider_executed ∧
    parsed.invalid = false := by
  unfold do_parse at ok
  split at ok
  · split_ifs at ok with hosted
    obtain ⟨raw,-,ok⟩ := bind_ok.mp ok
    obtain ⟨input,-,ok⟩ := bind_ok.mp ok
    cases ok
    exact ⟨rfl,rfl,hosted.1.symm,rfl⟩
  · split at ok
    · cases ok
    · obtain ⟨_,-,ok⟩ := bind_ok.mp ok
      obtain ⟨_,-,ok⟩ := bind_ok.mp ok
      obtain ⟨_,-,ok⟩ := bind_ok.mp ok
      cases ok
      exact ⟨rfl,rfl,rfl,rfl⟩

theorem try_parse_ok (ok : try_parse ctx call = .ok parsed) : parsed.invalid = false := by
  unfold try_parse at ok
  split at ok
  · next first => exact (do_parse_ok (first.trans ok)).2.2.2
  · split at ok
    · cases ok
    · split_ifs at ok
      split at ok
      · cases ok
      · cases ok
      · exact (do_parse_ok ok).2.2.2

theorem do_parse_listed (ok : do_parse ctx call = .ok parsed) (client : parsed.provider_executed = false) :
    parsed.tool_name ∈ ctx.tools.names := by
  unfold do_parse at ok
  split at ok
  · split_ifs at ok
    obtain ⟨raw,-,ok⟩ := bind_ok.mp ok
    obtain ⟨input,-,ok⟩ := bind_ok.mp ok
    cases ok
    cases client
  · next tool found =>
    have listed : call.tool_name ∈ ctx.tools.names := List.mem_map_of_mem (f := Prod.fst) (Assoc.mem_of_lookup found)
    split at ok
    · cases ok
    · obtain ⟨_,-,ok⟩ := bind_ok.mp ok
      obtain ⟨_,-,ok⟩ := bind_ok.mp ok
      obtain ⟨_,-,ok⟩ := bind_ok.mp ok
      cases ok
      exact listed

theorem try_parse_listed (ok : try_parse ctx call = .ok parsed) (client : parsed.provider_executed = false) :
    parsed.tool_name ∈ ctx.tools.names := by
  unfold try_parse at ok
  split at ok
  · next first => exact do_parse_listed (first.trans ok) client
  · split at ok
    · cases ok
    · split_ifs at ok
      split at ok
      · cases ok
      · cases ok
      · exact do_parse_listed ok client

theorem parse_tool_call_listed (valid : (parse_tool_call ctx call).invalid = false)
    (client : (parse_tool_call ctx call).provider_executed = false) :
    (parse_tool_call ctx call).tool_name ∈ ctx.tools.names := by
  unfold parse_tool_call at valid client ⊢
  cases done : try_parse ctx call with
  | ok =>
    rw [done] at client
    exact try_parse_listed done client
  | error =>
    rw [done] at valid
    cases valid

theorem invalid_dynamic (invalid : (parse_tool_call ctx call).invalid = true) :
    (parse_tool_call ctx call).dynamic = true := by
  unfold parse_tool_call at invalid ⊢
  split
  · next parsed ok =>
    simp only [ok,try_parse_ok ok,Bool.false_eq_true] at invalid
  · rfl

end

end Ferrin.GenerateText
