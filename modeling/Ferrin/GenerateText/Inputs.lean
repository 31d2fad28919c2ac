import Ferrin.GenerateText.Run
import Ferrin.Prompt.Convert

/-!
The inputs of a step: the messages so far with the responses that came since,
the overrides of a step hook, the tools and the prompt. Both loops share them.
-/
namespace Ferrin.GenerateText
open Ferrin.Prompt (ConvertContext convert_to_prompt)
open Result (bind_error bind_ok)

/-- How a step ends early: with an error, or by a slice that is out of range. -/
inductive Failure where
  | Failed (error : Error)
  | OutOfRange

def fallible {α : Type} : Except Error α → Except Failure α
  | .ok value => .ok value
  | .error error => .error (.Failed error)

/-- What a call is configured with, as far as its steps read it. -/
structure CallConfig where
  initial_messages : List Message
  instructions : Option Prompt
  environment : ToolEnvironment
  model_tools : ToolSet
  tool_choice : Option ToolChoice
  active_tools : Option (List ToolName)
  convert : ConvertContext
  repair : Option (Option Prompt → List Message → ToolCall → Error → Except String (Option ToolCall))
  refine : RefineToolInputs
  parse : String → Except String JsonValue
  from_str : String → Option JsonValue

structure StepOverrides where
  tool_choice : Option ToolChoice
  active_tools : Option (List ToolName)
  instructions : Option Prompt
  messages : Option (List Message)
  tools_context : Option JsonValue
  runtime_context : Option JsonValue

def StepOverrides.default : StepOverrides := ⟨none,none,none,none,none,none⟩

/-- What is carried between the steps of one call. -/
structure StepState where
  messages : List Message
  instructions : Option Prompt
  environment : ToolEnvironment
  response_count : Nat

namespace StepState

def new (config : CallConfig) : StepState := ⟨config.initial_messages,config.instructions,config.environment,0⟩

/-- The responses that came since the last step are appended. -/
def extend (state : StepState) (response_messages : List Message) : Except Failure StepState :=
  if state.response_count ≤ response_messages.length then .ok { state with
    messages := state.messages ++ response_messages.drop state.response_count
    response_count := response_messages.length }
  else .error .OutOfRange

def apply (state : StepState) (overrides : StepOverrides) : StepState := { state with
  messages := overrides.messages.getD state.messages
  instructions := overrides.instructions.or state.instructions
  environment := ⟨overrides.tools_context.or state.environment.tools_context,
    overrides.runtime_context.or state.environment.runtime_context⟩ }

end StepState

def filter_active (tools : ToolSet) (active : Option (List ToolName)) : ToolSet :=
  match active with
  | some active => tools.filter (·.1 ∈ active)
  | none => tools

def prepare_tools (tools : ToolSet) (tool_choice : Option ToolChoice) (tools_context : Option JsonValue) :
    Except Error (Option ToolChoice) :=
  if tools.isEmpty then .ok none
  else do
    tools.forM fun (name,tool) =>
      match tool.validate_named_context name tools_context with
      | .ok _ => .ok ()
      | .error error => .error (.InvalidArgument "tools_context" error)
    return tool_choice

structure PreparedStep where
  inputs : StepInputs
  prompt : Prompt
  state : StepState

def prepare_step_inputs (config : CallConfig) (response_messages : List Message)
    (overrides : Except Error StepOverrides) (state : StepState) : Except Failure PreparedStep := do
  let state ← state.extend response_messages
  let overrides ← fallible overrides
  let state := state.apply overrides
  let tools := filter_active config.model_tools (overrides.active_tools.or config.active_tools)
  let tool_choice ← fallible (prepare_tools tools (overrides.tool_choice.or config.tool_choice)
    state.environment.tools_context)
  let prompt ← fallible (convert_to_prompt config.convert (state.instructions.getD []) state.messages)
  return {
    inputs := {
      parse := {
        tools
        tool_choice
        repair := config.repair.map (· state.instructions state.messages)
        refine := config.refine
        parse := config.parse
        from_str := config.from_str }
      messages := state.messages
      environment := state.environment }
    prompt
    state }

/-! ### A plain configuration -/

def plainConvert : ConvertContext where
  convert_user_part := fun
    | .Text part => .ok (.Text part)
    | _ => .error (.InvalidDataContent "no files")
  file_data := fun _ _ => .error (.InvalidDataContent "no files")
  convert_output := .ok
  merge_provider_options := fun first second => first ++ second

def CallConfig.plain (tools : ToolSet) (initial_messages : List Message) : CallConfig where
  initial_messages
  instructions := none
  environment := ⟨none,none⟩
  model_tools := tools
  tool_choice := none
  active_tools := none
  convert := plainConvert
  repair := none
  refine := []
  parse := fun _ => .ok (.object [])
  from_str := fun _ => none

structure StepState.Reads (state : StepState) (initial response_messages : List Message) : Prop where
  in_range : state.response_count ≤ response_messages.length
  seen : state.messages = initial ++ response_messages.take state.response_count

section
variable {state : StepState} {config : CallConfig} {initial response_messages : List Message}

theorem fallible_ok {α : Type} {result : Except Error α} {value : α} :
    fallible result = .ok value ↔ result = .ok value := by
  cases result <;> simp [fallible]

theorem fallible_in_range {α : Type} {result : Except Error α} : fallible result ≠ .error .OutOfRange := by
  cases result <;> simp [fallible]

theorem StepState.reads_new : (StepState.new config).Reads config.initial_messages response_messages :=
  ⟨Nat.zero_le _,by simp [StepState.new]⟩

section
variable (reads : state.Reads initial response_messages)
include reads

theorem StepState.Reads.grows (more : List Message) :
    state.Reads initial (response_messages ++ more) := by
  refine ⟨?_,?_⟩
  · rw [List.length_append]
    exact Nat.le_add_right_of_le reads.in_range
  · rw [List.take_append_of_le_length reads.in_range]
    exact reads.seen

theorem StepState.Reads.extend :
    state.extend response_messages = .ok { state with
      messages := initial ++ response_messages
      response_count := response_messages.length } := by
  rw [StepState.extend,if_pos reads.in_range,reads.seen,List.append_assoc,List.take_append_drop]

theorem StepState.Reads.not_out_of_range
    (overrides : Except Error StepOverrides) :
    prepare_step_inputs config response_messages overrides state ≠ .error .OutOfRange := by
  intro failed
  rw [prepare_step_inputs,reads.extend] at failed
  rcases bind_error.mp failed with other | ⟨_,_,failed⟩
  · cases other
  rcases bind_error.mp failed with other | ⟨_,_,failed⟩
  · exact fallible_in_range other
  rcases bind_error.mp failed with other | ⟨_,_,failed⟩
  · exact fallible_in_range other
  rcases bind_error.mp failed with other | ⟨_,_,failed⟩
  · exact fallible_in_range other
  · cases failed

theorem StepState.Reads.prepare {overrides : StepOverrides}
    {prepared : PreparedStep} (kept : overrides.messages = none)
    (done : prepare_step_inputs config response_messages (.ok overrides) state = .ok prepared) :
    prepared.inputs.messages = initial ++ response_messages ∧ prepared.state.Reads initial response_messages := by
  rw [prepare_step_inputs,reads.extend] at done
  obtain ⟨_,same,done⟩ := bind_ok.mp done
  cases same
  obtain ⟨_,same,done⟩ := bind_ok.mp done
  cases same
  obtain ⟨_,_,done⟩ := bind_ok.mp done
  obtain ⟨_,_,done⟩ := bind_ok.mp done
  cases done
  refine ⟨?_,Nat.le_refl _,?_⟩
  · simp [StepState.apply,kept]
  · simp [StepState.apply,kept]

end

end

end Ferrin.GenerateText
