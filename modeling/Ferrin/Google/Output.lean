import Ferrin.Google.Response
import Ferrin.Library.Result

/-!
The content of a complete response. Most parts have one payload, and become one
content part then (`map_part_payload`).
-/
namespace Ferrin.Google
open OutputMapper

/-! ### Signatures of empty texts -/

def merge_entry (key : String) (object : JsonObject) : ProviderMetadata → ProviderMetadata
  | [] => [(key,JsonObject.extend [] object)]
  | (k,existing) :: rest =>
    if key = k then (k,JsonObject.extend existing object) :: rest
    else if key < k then (key,JsonObject.extend [] object) :: (k,existing) :: rest
    else (k,existing) :: merge_entry key object rest

def merge_metadata (target extra : Option ProviderMetadata) : Option ProviderMetadata :=
  match extra,target with
  | none,_ => target
  | some extra,some existing => some (extra.foldl (fun existing entry => merge_entry entry.1 entry.2 existing) existing)
  | some extra,none => some extra

def attached (metadata : Option ProviderMetadata) : Content → Content
  | .Text text existing => .Text text (merge_metadata existing metadata)
  | .Reasoning text existing => .Reasoning text (merge_metadata existing metadata)
  | .File data media_type filename existing => .File data media_type filename (merge_metadata existing metadata)
  | .ReasoningFile data media_type existing => .ReasoningFile data media_type (merge_metadata existing metadata)
  | .ToolCall call => .ToolCall { call with provider_metadata := merge_metadata call.provider_metadata metadata }
  | part => part

def attach_signature (content : List Content) (metadata : Option ProviderMetadata) : List Content :=
  content.modify (content.length - 1) (attached metadata)

namespace OutputMapper

def map_text (config : Config) (content : List Content) (text : String) (thought : Option Bool)
    (signature : Option String) : List Content :=
  if text = "" then
    match signature with
    | some signature => attach_signature content (signature_metadata config (some signature))
    | none => content
  else if thought = some true then content ++ [.Reasoning text (signature_metadata config signature)]
  else content ++ [.Text text (signature_metadata config signature)]

/-- The body of the loop of `map_parts`. -/
def map_part (config : Config) (state : OutputMapper × List Content) (part : Part) :
    Except ProviderError (OutputMapper × List Content) := do
  let (m,content) := state
  let signature := part.thought_signature
  let (m,content) := match part.executable_code with
    | some code =>
      let (m,call) := m.code_execution_call_with_signature config code.language code.code signature
      (m,content ++ [Content.ToolCall call])
    | none => (m,content)
  let (m,content) := match part.code_execution_result with
    | some result =>
      let (m,result) := m.code_execution_result_with_signature config result.outcome result.output signature
      (m,content ++ [Content.ToolResult result])
    | none => (m,content)
  let content := match part.text with
    | some text => map_text config content text part.thought signature
    | none => content
  let (m,content) := match part.function_call with
    | some call =>
      match call.name with
      | some name =>
        let (m,call) := m.function_call config call.id name call.args signature
        (m,content ++ [Content.ToolCall call])
      | none => (m,content)
    | none => (m,content)
  let content ← match part.inline_data with
    | some inline => do
      let file ← inline_file config inline.mime_type inline.data (part.thought = some true) signature
      pure (content ++ [file])
    | none => pure content
  let (m,content) := match part.tool_call with
    | some call =>
      let (m,call) := m.server_tool_call config call.tool_type call.args call.id signature
      (m,content ++ [Content.ToolCall call])
    | none => (m,content)
  let (m,content) := match part.tool_response with
    | some response =>
      let (m,result) := m.server_tool_response config response
      (m,content ++ [Content.ToolResult result])
    | none => (m,content)
  return (m,content)

def map_parts (config : Config) (m : OutputMapper) (parts : List Part) :
    Except ProviderError (OutputMapper × List Content) :=
  parts.foldlM (map_part config) (m,[])

end OutputMapper

/-- What a part carries besides its thought flag and signature. -/
inductive Payload where
  | Text (text : String)
  | FunctionCall (call : FunctionCall)
  | InlineData (inline : InlineData)
  | ExecutableCode (code : ExecutableCode)
  | CodeExecutionResult (result : CodeExecutionResult)
  | ToolCall (call : ServerToolCall)
  | ToolResponse (response : JsonValue)

def Payload.part (thought : Option Bool) (thought_signature : Option String) : Payload → Part
  | .Text text => ⟨some text,thought,thought_signature,none,none,none,none,none,none⟩
  | .FunctionCall call => ⟨none,thought,thought_signature,some call,none,none,none,none,none⟩
  | .InlineData inline => ⟨none,thought,thought_signature,none,some inline,none,none,none,none⟩
  | .ExecutableCode code => ⟨none,thought,thought_signature,none,none,some code,none,none,none⟩
  | .CodeExecutionResult result => ⟨none,thought,thought_signature,none,none,none,some result,none,none⟩
  | .ToolCall call => ⟨none,thought,thought_signature,none,none,none,none,some call,none⟩
  | .ToolResponse response => ⟨none,thought,thought_signature,none,none,none,none,none,some response⟩

def Payload.content (config : Config) (m : OutputMapper) (thought : Option Bool) (signature : Option String) :
    Payload → Except ProviderError (OutputMapper × Content)
  | .Text text =>
    .ok (m,if thought = some true then .Reasoning text (signature_metadata config signature)
      else .Text text (signature_metadata config signature))
  | .FunctionCall call =>
    let (m,call) := m.function_call config call.id (call.name.getD "") call.args signature
    .ok (m,.ToolCall call)
  | .InlineData inline => (inline_file config inline.mime_type inline.data (thought = some true) signature).map ((m,·))
  | .ExecutableCode code =>
    let (m,call) := m.code_execution_call_with_signature config code.language code.code signature
    .ok (m,.ToolCall call)
  | .CodeExecutionResult result =>
    let (m,result) := m.code_execution_result_with_signature config result.outcome result.output signature
    .ok (m,.ToolResult result)
  | .ToolCall call =>
    let (m,call) := m.server_tool_call config call.tool_type call.args call.id signature
    .ok (m,.ToolCall call)
  | .ToolResponse response =>
    let (m,result) := m.server_tool_response config response
    .ok (m,.ToolResult result)

/-- Payloads that become content of their own. -/
def Payload.shows : Payload → Prop
  | .Text text => text ≠ ""
  | .FunctionCall call => call.name.isSome
  | _ => True

theorem map_part_payload {config : Config} {payload : Payload} (shows_ : payload.shows) (m : OutputMapper)
    (content : List Content) (thought : Option Bool) (signature : Option String) :
    OutputMapper.map_part config (m,content) (payload.part thought signature) =
      (payload.content config m thought signature).map fun mapped => (mapped.1,content ++ [mapped.2]) := by
  cases payload with
  | Text text =>
    have nonempty : text ≠ "" := shows_
    by_cases thinks : thought = some true <;>
      simp [map_part,map_text,Payload.part,Payload.content,nonempty,thinks,Except.map,pure,
        Except.pure,bind,Except.bind]
  | FunctionCall =>
    obtain ⟨_,named⟩ := Option.isSome_iff_exists.mp shows_
    simp [map_part,Payload.part,Payload.content,named,Except.map,pure,Except.pure,bind,Except.bind]
  | InlineData inline =>
    unfold map_part Payload.part Payload.content
    dsimp only
    generalize inline_file config inline.mime_type inline.data (decide (thought = some true)) signature = file
    cases file <;> rfl
  | ExecutableCode | CodeExecutionResult | ToolCall | ToolResponse => rfl

end Ferrin.Google
