import Ferrin.Google.Interactions.Output
import Ferrin.Library.Base64
import Ferrin.Library.Result
import Ferrin.Message
import Mathlib.Control.Monad.Writer

/-!
The conversion of a prompt into the input of an interaction. With a previous
interaction, whose steps the server has, the assistant messages of that
interaction are left out.
-/
namespace Ferrin.Google.Interactions.Input
open List

/-- The provider's configuration, and the text of a value that `serde_json` writes. -/
structure Environment where
  name : String
  to_string : JsonValue → String

structure Options where
  previous_interaction_id : Option String
  store : Option Bool
  media_resolution : Option String

abbrev Converting := WriterT (List Warning) (Except ProviderError)

def unsupported (feature : String) : Warning := .Unsupported feature none

def invalid (argument message : String) : ProviderError := ⟨s!"invalid argument `{argument}`: {message}",false,none,none⟩

def option (config : Environment) (options : Option ProviderOptions) (key : String) : Option JsonValue :=
  options.bind fun options =>
    ((options.lookup config.name).bind (JsonObject.get · key)).or ((options.lookup "google").bind (JsonObject.get · key))

def assistant_options : AssistantPromptPart → Option ProviderOptions
  | .Text part => part.provider_options
  | .File part => part.provider_options
  | .Reasoning part => part.provider_options
  | .ToolCall part => part.provider_options
  | .ToolResult part => part.provider_options
  | .Custom part => part.provider_options
  | .ReasoningFile part => part.provider_options

def text_block (text : String) : JsonValue := .object [("type",.string "text"),("text",.string text)]

def file_kind (media : String) : Except ProviderError String :=
  match String.ofList (media.toList.takeWhile (· ≠ '/')) with
  | "image" => .ok "image"
  | "audio" => .ok "audio"
  | "video" => .ok "video"
  | "application" => .ok "document"
  | "text" => .ok "document"
  | _ => .error (invalid "media_type" "unsupported interactions file media type")

def file (config : Environment) (data : FileData) (media : String) : Except ProviderError JsonValue :=
  match data with
  | .Text text => .ok (text_block text)
  | data => do
    let kind ← file_kind media
    let value := JsonValue.object [("type",.string kind),("mime_type",.string media)]
    match data with
    | .Bytes bytes => return value.assign "data" (.string (String.ofList (Base64.encode true bytes)))
    | .Url url => return value.assign "uri" (.string url)
    | .Reference reference =>
      match (reference.lookup config.name).or (reference.lookup "google") with
      | some uri => return value.assign "uri" (.string uri)
      | none => .error (invalid "reference" "missing Google file reference")
    | .Text _ => .error (invalid "file" "unsupported interactions file payload")

def content_block (config : Environment) : ToolResultContentPart → Converting (Option JsonValue)
  | .Text text _ => return some (text_block text)
  | .File data media_type _ _ => do
    if "image/".toList <+: media_type.toList then return some (← file config data media_type)
    else do
      tell [unsupported "interactions tool result content"]
      return none
  | .Custom _ => do
    tell [unsupported "interactions tool result content"]
    return none

def result_value (config : Environment) : ToolResultOutput → Converting JsonValue
  | .Text value _ | .ErrorText value _ => return .string value
  | .Json value _ | .ErrorJson value _ => return .string (config.to_string value)
  | .ExecutionDenied reason _ => return .string (reason.getD "tool execution denied")
  | .Content value => do
    let blocks ← value.mapM (content_block config)
    return .array (blocks.filterMap id)

def is_error : ToolResultOutput → Bool
  | .ErrorText .. | .ErrorJson .. => true
  | _ => false

def is_denied : ToolResultOutput → Bool
  | .ExecutionDenied .. => true
  | _ => false

def assign_some (value : JsonValue) (key : String) (member : Option JsonValue) : JsonValue :=
  match member with
  | some member => value.assign key member
  | none => value

def tool_result (config : Environment) (part : ToolResultPart) : Converting JsonValue := do
  let result ← result_value config part.output
  let block := JsonValue.object [("type",.string "function_result"),("call_id",.string part.tool_call_id),
    ("name",.string part.tool_name),("result",result)]
  let block := if is_error part.output ∨ is_denied part.output then block.assign "is_error" (.bool true) else block
  return assign_some block "signature" (option config part.provider_options "signature")

def flush (steps pending : List JsonValue) : List JsonValue :=
  if pending = [] then steps else steps ++ [.object [("type",.string "model_output"),("content",.array pending)]]

def merge_block (merged : List JsonValue) (block : JsonValue) : List JsonValue :=
  match merged.getLast? with
  | some previous =>
    if block.text "type" = some "text" ∧ previous.text "type" = some "text" then
      merged.dropLast ++ [previous.assign "text"
        (.string ((previous.text "text").getD "" ++ "\n\n" ++ (block.text "text").getD ""))]
    else merged ++ [block]
  | none => merged ++ [block]

def merge_text (blocks : List JsonValue) : List JsonValue := blocks.foldl merge_block []

def video_processing (value : JsonValue) : Converting (Option JsonValue) :=
  if value = .null then return none
  else if value.as_str = some "agentic" ∨ value.as_str = some "static" then return some value
  else if value.text "type" = some "static" then
    let number (key wire : String) : JsonObject := match value.get key with
      | some (.number n) => [(wire,.number n)]
      | _ => []
    return some (.object ([("type",.string "static")] ++ number "startOffset" "start_offset" ++
      number "endOffset" "end_offset" ++ number "fps" "fps"))
  else do
    tell [.Other ("google.interactions: invalid video processing option; expected agentic, static, or a " ++
      "static processing configuration; option dropped")]
    return none

def user_block (config : Environment) (options : Options) : UserPromptPart → Converting JsonValue
  | .Text part => return text_block part.text
  | .File part => do
    let block ← file config part.data part.media_type
    let kind := block.text "type"
    if kind = some "image" ∨ kind = some "video" then
      let block := assign_some block "resolution" (options.media_resolution.map .string)
      match if kind = some "video" then option config part.provider_options "processing" else none with
      | some processing => return assign_some block "processing" (← video_processing processing)
      | none => return block
    else return block

def user_input (content : List JsonValue) : List JsonValue :=
  if content = [] then [] else [.object [("type",.string "user_input"),("content",.array content)]]

inductive Piece where
  | Pending (block : JsonValue)
  | Step (step : JsonValue)
  | Nothing

def thought (part : ReasoningPart) : JsonValue :=
  .object ([("type",.string "thought")] ++ if part.text = "" then [] else [("summary",.array [text_block part.text])])

def call_step (config : Environment) (part : ToolCallPart) : JsonValue :=
  let kind := ((option config part.provider_options "stepType").bind JsonValue.as_str).getD "function_call"
  .object [("type",.string kind),("id",.string part.tool_call_id),("name",.string part.tool_name),("arguments",part.input)]

def result_step (config : Environment) (part : ToolResultPart) : Converting JsonValue := do
  let result ← tool_result config part
  match (option config part.provider_options "stepType").bind JsonValue.as_str with
  | some kind =>
    let value := match part.output with
      | .Json value _ | .ErrorJson value _ => value
      | _ => result.index "result"
    let step := JsonValue.object [("type",.string kind),("call_id",.string part.tool_call_id),("result",value),
      ("is_error",.bool (is_error part.output))]
    return if kind = "mcp_server_tool_result" then step.assign "name" (.string part.tool_name) else step
  | none => return .object [("type",.string "user_input"),("content",.array [result])]

def processing_step (config : Environment) (part : CustomPart) (kind : String) : JsonValue :=
  let metadata := some (part.provider_options.getD [])
  .object ([("type",.string kind)] ++ entry "id" (option config metadata "processingId") ++
    entry "call_id" (option config metadata "processingCallId"))

def assistant_piece (config : Environment) : AssistantPromptPart → Converting Piece
  | .Text part => return .Pending (text_block part.text)
  | .File part => return .Pending (← file config part.data part.media_type)
  | .Reasoning part => return .Step (thought part)
  | .ToolCall part => return .Step (call_step config part)
  | .ToolResult part => return .Step (← result_step config part)
  | .Custom part => do
    if part.kind = "google.processing_call" then return .Step (processing_step config part "processing_call")
    else if part.kind = "google.processing_result" then return .Step (processing_step config part "processing_result")
    else do
      tell [unsupported "interactions assistant part"]
      return .Nothing
  | .ReasoningFile _ => do
    tell [unsupported "interactions assistant part"]
    return .Nothing

def assistant_part (config : Environment) (state : List JsonValue × List JsonValue) (part : AssistantPromptPart) :
    Converting (List JsonValue × List JsonValue) := do
  match ← assistant_piece config part with
  | .Pending block => return (state.1,state.2 ++ [block])
  | .Nothing => return state
  | .Step step =>
    let step := assign_some step "signature" (option config (assistant_options part) "signature")
    return (flush state.1 state.2 ++ [step],[])

def assistant_steps (config : Environment) (content : List AssistantPromptPart) : Converting (List JsonValue) := do
  let (steps,pending) ← content.foldlM (assistant_part config) ([],[])
  return flush steps pending

def tool_part (config : Environment) (dropped_calls : List ToolCallId) (blocks : List JsonValue) :
    ToolPromptPart → Converting (List JsonValue)
  | .ToolResult part => do
    if part.tool_call_id ∈ dropped_calls then return blocks else return blocks ++ [← tool_result config part]
  | .ToolApprovalResponse _ => do
    tell [unsupported "interactions tool approval response"]
    return blocks

def message_steps (config : Environment) (options : Options) (dropped_calls : List ToolCallId) :
    PromptMessage → Converting (List JsonValue)
  | .System .. => return []
  | .User content _ => return user_input (merge_text (← content.mapM (user_block config options)))
  | .Assistant content _ => assistant_steps config content
  | .Tool content _ => return user_input (← content.foldlM (tool_part config dropped_calls) [])

def carries (config : Environment) (id : String) : PromptMessage → Bool
  | .Assistant content provider_options =>
    let named (options : Option ProviderOptions) : Bool := (option config options "interactionId").bind JsonValue.as_str = some id
    named provider_options || content.any fun part => named (assistant_options part)
  | _ => false

def tool_calls : PromptMessage → List ToolCallId
  | .Assistant content _ => content.filterMap fun
    | .ToolCall call => some call.tool_call_id
    | _ => none
  | _ => []

structure Loop where
  steps : List JsonValue
  system : List String
  dropped_calls : List ToolCallId

def linked (options : Options) : Option String := options.previous_interaction_id.filter fun _ => options.store ≠ some false

def system_of : PromptMessage → List String
  | .System content _ => [content]
  | _ => []

def convert_message (config : Environment) (options : Options) (loop : Loop) (message : PromptMessage) : Converting Loop :=
  if (linked options).any fun id => carries config id message then
    return { loop with dropped_calls := loop.dropped_calls ++ tool_calls message }
  else do
    let steps ← message_steps config options loop.dropped_calls message
    return { loop with steps := loop.steps ++ steps,system := loop.system ++ system_of message }

def convert (config : Environment) (options : Options) (prompt : Prompt) : Converting (List JsonValue × Option String) := do
  if options.previous_interaction_id.isSome ∧ options.store = some false then
    tell [.Unsupported "previousInteractionId with store=false" (some "full history is retained")]
  let loop ← prompt.foldlM (convert_message config options) ⟨[],[],[]⟩
  return (loop.steps,if loop.system = [] then none else some (String.intercalate "\n\n" loop.system))

def Options.unlinked (options : Options) : Options := { options with previous_interaction_id := none }

/-! ### Conversions that succeed -/

section
variable {α β : Type} {x : Converting α} {f : α → Converting β} {a : α} {b : β}

def Gives (x : Converting α) (a : α) : Prop := ∃ warnings, x.run = .ok (a,warnings)

theorem gives_pure {a' : α} : Gives (pure a : Converting α) a' ↔ a = a' :=
  ⟨fun ⟨_,same⟩ => (Prod.mk.inj (Except.ok.inj same)).1,fun same => ⟨[],same ▸ rfl⟩⟩

theorem run_bind (x : Converting α) (f : α → Converting β) :
    (x >>= f).run = x.run >>= fun a => (f a.1).run >>= fun b => .ok (b.1,a.2 ++ b.2) := by
  change (x.run >>= fun a => (fun b => (b.1,a.2 ++ b.2)) <$> (f a.1).run) = _
  refine congrArg (x.run >>= ·) (funext fun a => ?_)
  cases (f a.1).run <;> rfl

theorem gives_bind : Gives (x >>= f) b ↔ ∃ a, Gives x a ∧ Gives (f a) b := by
  simp only [Gives,run_bind,Result.bind_ok]
  constructor
  · rintro ⟨_,a,first,b',later,same⟩
    obtain ⟨rfl,-⟩ := Prod.mk.inj (Except.ok.inj same)
    exact ⟨a.1,⟨a.2,first⟩,b'.2,later⟩
  · rintro ⟨a,⟨before,first⟩,after,later⟩
    exact ⟨before ++ after,_,first,_,later,rfl⟩

theorem gives_tell (warnings : List Warning) : Gives (tell warnings : Converting PUnit) ⟨⟩ := ⟨warnings,rfl⟩

theorem Gives.unique {a' : α} (gives : Gives x a) (gives' : Gives x a') : a = a' := by
  obtain ⟨_,one⟩ := gives
  obtain ⟨_,other⟩ := gives'
  exact (Prod.mk.inj (Except.ok.inj (one.symm.trans other))).1

end

section
variable {config : Environment} {options : Options} {dropped_calls : List ToolCallId} {id : String}

def result_call : ToolPromptPart → Option ToolCallId
  | .ToolResult part => some part.tool_call_id
  | .ToolApprovalResponse _ => none

def answers : PromptMessage → List ToolCallId
  | .Tool content _ => content.filterMap result_call
  | _ => []

/-- The blocks with dropped calls are as many as those without, if no result is dropped, and else fewer. -/
theorem tool_parts_dropped {content : List ToolPromptPart} {blocks blocks' : List JsonValue}
    (gives : Gives (content.foldlM (tool_part config []) blocks) blocks') (kept : List JsonValue) :
    ∃ more more', blocks' = blocks ++ more ∧ Gives (content.foldlM (tool_part config dropped_calls) kept) (kept ++ more') ∧
      ((∀ call ∈ content.filterMap result_call, call ∉ dropped_calls) → more' = more) ∧
      more'.length ≤ more.length ∧
      ((∃ call ∈ content.filterMap result_call, call ∈ dropped_calls) → more'.length < more.length) := by
  induction content generalizing blocks kept with
  | nil =>
    obtain rfl := gives_pure.mp gives
    exact ⟨[],[],by simp,gives_pure.mpr (by simp),fun _ => rfl,Nat.le_refl _,by simp⟩
  | cons part rest ih =>
    obtain ⟨_,one,gives⟩ := gives_bind.mp gives
    cases part with
    | ToolApprovalResponse response =>
      obtain ⟨_,_,one⟩ := gives_bind.mp one
      obtain rfl := gives_pure.mp one
      obtain ⟨more,more',same,others,fine⟩ := ih gives kept
      exact ⟨more,more',same,gives_bind.mpr ⟨_,gives_bind.mpr ⟨_,gives_tell _,gives_pure.mpr rfl⟩,others⟩,fine⟩
    | ToolResult part =>
      obtain ⟨block,made,one⟩ := gives_bind.mp one
      obtain rfl := gives_pure.mp one
      rw [show (ToolPromptPart.ToolResult part :: rest).filterMap result_call =
        part.tool_call_id :: rest.filterMap result_call from rfl]
      by_cases dropped : part.tool_call_id ∈ dropped_calls
      · obtain ⟨more,more',rfl,others,-,fewer,-⟩ := ih gives kept
        refine ⟨block :: more,more',by simp,gives_bind.mpr ⟨kept,?_,others⟩,?_,?_,?_⟩
        · rw [tool_part,if_pos dropped]
          exact gives_pure.mpr rfl
        · exact fun none_ => absurd dropped (none_ _ mem_cons_self)
        · exact Nat.le_succ_of_le fewer
        · exact fun _ => Nat.lt_succ_of_le fewer
      · obtain ⟨more,more',rfl,others,same,fewer,strictly⟩ := ih gives (kept ++ [block])
        refine ⟨block :: more,block :: more',by simp,gives_bind.mpr ⟨_,?_,by simpa using others⟩,?_,?_,?_⟩
        · rw [tool_part,if_neg dropped]
          exact gives_bind.mpr ⟨block,made,gives_pure.mpr rfl⟩
        · intro none_
          rw [same fun call member => none_ call (mem_cons_of_mem _ member)]
        · simpa using fewer
        · rintro ⟨call,member,isDropped⟩
          rcases mem_cons.mp member with rfl | later
          · exact absurd isDropped dropped
          · simpa using strictly ⟨call,later,isDropped⟩

def blocks (steps : List JsonValue) : Nat := (steps.map fun step => (step.items "content").length).sum

theorem blocks_append (first second : List JsonValue) : blocks (first ++ second) = blocks first + blocks second := by
  rw [blocks,map_append,sum_append]
  rfl

theorem blocks_user_input (content : List JsonValue) : blocks (user_input content) = content.length := by
  unfold user_input
  split_ifs with empty
  · rw [empty]
    rfl
  · rfl

def steps_of (config : Environment) (options : Options) (message : PromptMessage) : List JsonValue :=
  match (message_steps config options [] message).run with
  | .ok (steps,_) => steps
  | .error _ => []

theorem steps_of_eq {message : PromptMessage} {steps : List JsonValue}
    (gives : Gives (message_steps config options [] message) steps) : steps_of config options message = steps := by
  obtain ⟨_,done⟩ := gives
  rw [steps_of,done]

structure Remains (dropped_calls : List ToolCallId) (message : PromptMessage) (steps steps' : List JsonValue) : Prop where
  whole : (∀ call ∈ answers message, call ∉ dropped_calls) → steps' = steps
  fewer : blocks steps' ≤ blocks steps
  strictly : (∃ call ∈ answers message, call ∈ dropped_calls) → blocks steps' < blocks steps

theorem message_dropped {message : PromptMessage} {steps : List JsonValue}
    (gives : Gives (message_steps config options.unlinked [] message) steps) :
    ∃ steps', Gives (message_steps config options dropped_calls message) steps' ∧
      Remains dropped_calls message steps steps' := by
  cases message with
  | Tool content _ =>
    obtain ⟨content,parts,gives⟩ := gives_bind.mp gives
    obtain rfl := gives_pure.mp gives
    obtain ⟨more,more',rfl,others,same,fewer,strictly⟩ := @tool_parts_dropped config dropped_calls _ _ _ parts []
    refine ⟨_,gives_bind.mpr ⟨_,others,gives_pure.mpr rfl⟩,?_,?_,?_⟩
    · exact fun none_ => congrArg user_input (same none_)
    · rw [blocks_user_input,blocks_user_input]
      exact fewer
    · rw [blocks_user_input,blocks_user_input]
      exact strictly
  | System => exact ⟨steps,gives,fun _ => rfl,Nat.le_refl _,by simp [answers]⟩
  | User => exact ⟨steps,gives,fun _ => rfl,Nat.le_refl _,by simp [answers]⟩
  | Assistant => exact ⟨steps,gives,fun _ => rfl,Nat.le_refl _,by simp [answers]⟩

/-- A conversion without the link joins what its messages give. -/
theorem unlinked_loop {prompt : Prompt} {loop loop' : Loop}
    (gives : Gives (prompt.foldlM (convert_message config options.unlinked) loop) loop') (fresh : loop.dropped_calls = []) :
    loop'.steps = loop.steps ++ prompt.flatMap (steps_of config options.unlinked) ∧
    loop'.system = loop.system ++ prompt.flatMap system_of ∧
    ∀ message ∈ prompt, Gives (message_steps config options.unlinked [] message) (steps_of config options.unlinked message) := by
  induction prompt generalizing loop with
  | nil =>
    obtain rfl := gives_pure.mp gives
    simp
  | cons message rest ih =>
    obtain ⟨next,one,gives⟩ := gives_bind.mp gives
    obtain ⟨steps,made,one⟩ := gives_bind.mp one
    obtain rfl := gives_pure.mp one
    rw [fresh] at made
    obtain ⟨same,system,others⟩ := ih gives fresh
    rw [same,system,flatMap_cons,flatMap_cons,steps_of_eq made]
    refine ⟨by simp,by simp,forall_mem_cons.mpr ⟨?_,others⟩⟩
    rw [steps_of_eq made]
    exact made

/-- The steps that remain when the messages of the interaction are left out. -/
def compacted (config : Environment) (options : Options) (id : String) (prompt : Prompt) : List JsonValue :=
  (prompt.filter fun message => !carries config id message).flatMap (steps_of config options)

def left_calls (config : Environment) (id : String) (prompt : Prompt) : List ToolCallId :=
  (prompt.filter (carries config id)).flatMap tool_calls

theorem left_calls_cons (message : PromptMessage) (rest : Prompt) :
    left_calls config id (message :: rest) = left_calls config id [message] ++ left_calls config id rest := by
  rw [left_calls,left_calls,left_calls,← flatMap_append,← filter_append]
  rfl

def Unanswered (config : Environment) (id : String) (dropped_calls : List ToolCallId) (prompt : Prompt) : Prop :=
  ∀ before message after, prompt = before ++ message :: after →
    ∀ call ∈ answers message, call ∉ dropped_calls ++ left_calls config id before

theorem unanswered_cons {message : PromptMessage} {rest : Prompt} : Unanswered config id dropped_calls (message :: rest) ↔
    (∀ call ∈ answers message, call ∉ dropped_calls) ∧
      Unanswered config id (dropped_calls ++ left_calls config id [message]) rest := by
  constructor
  · refine fun none_ => ⟨fun call member => ?_,fun before other after split call member => ?_⟩
    · simpa [left_calls] using none_ [] message rest rfl call member
    · have apart := none_ (message :: before) other after (by rw [split]; rfl) call member
      rw [append_assoc,← left_calls_cons]
      exact apart
  · rintro ⟨first,others⟩ before other after split call member
    rcases before with _ | ⟨head,before⟩
    · obtain ⟨rfl,rfl⟩ := cons.inj split
      simpa [left_calls] using first call member
    · obtain ⟨rfl,rfl⟩ := cons.inj split
      have apart := others before other after rfl call member
      rw [append_assoc,← left_calls_cons] at apart
      exact apart

theorem carries_assistant {message : PromptMessage} (carried : carries config id message) :
    answers message = [] ∧ system_of message = [] := by
  cases message with
  | Assistant => exact ⟨rfl,rfl⟩
  | _ => cases carried

theorem linked_loop (stands : linked options = some id) {prompt : Prompt}
    (converts : ∀ message ∈ prompt, Gives (message_steps config options.unlinked [] message) (steps_of config options.unlinked message))
    (loop : Loop) :
    ∃ kept, Gives (prompt.foldlM (convert_message config options) loop)
        ⟨loop.steps ++ kept,loop.system ++ prompt.flatMap system_of,loop.dropped_calls ++ left_calls config id prompt⟩ ∧
      (Unanswered config id loop.dropped_calls prompt → kept = compacted config options.unlinked id prompt) ∧
      blocks kept ≤ blocks (compacted config options.unlinked id prompt) ∧
      (¬ Unanswered config id loop.dropped_calls prompt → blocks kept < blocks (compacted config options.unlinked id prompt)) := by
  induction prompt generalizing loop with
  | nil => 
    refine ⟨[],gives_pure.mpr (by simp [left_calls]),fun _ => rfl,Nat.le_refl _,fun answered => ?_⟩
    exact absurd (fun _ _ _ impossible => by simp at impossible) answered
  | cons message rest ih =>
    obtain ⟨first,later⟩ := forall_mem_cons.mp converts
    rw [unanswered_cons,left_calls_cons]
    by_cases carried : carries config id message
    · -- The message is left out, and its calls are dropped from now on.
      have taken : (linked options).any (fun id => carries config id message) = true := by rw [stands]; exact carried
      have step : convert_message config options loop message =
          pure { loop with dropped_calls := loop.dropped_calls ++ tool_calls message } := if_pos taken
      have own : left_calls config id [message] = tool_calls message := by simp [left_calls,carried]
      have others : compacted config options.unlinked id (message :: rest) = compacted config options.unlinked id rest := by
        simp [compacted,carried]
      obtain ⟨silent,no_system⟩ := carries_assistant carried
      obtain ⟨kept,gives,same,fewer,strictly⟩ := ih later { loop with dropped_calls := loop.dropped_calls ++ tool_calls message }
      rw [own,others,silent,flatMap_cons,no_system,nil_append,← append_assoc]
      refine ⟨kept,gives_bind.mpr ⟨_,step ▸ gives_pure.mpr rfl,gives⟩,fun none_ => same none_.2,fewer,fun answered => ?_⟩
      exact strictly fun none_ => answered ⟨fun _ impossible => absurd impossible not_mem_nil,none_⟩
    · have passed : ¬ (linked options).any (fun id => carries config id message) = true := by rw [stands]; exact carried
      obtain ⟨steps',made,remains⟩ := @message_dropped config options loop.dropped_calls message _ first
      have step : Gives (convert_message config options loop message)
          ⟨loop.steps ++ steps',loop.system ++ system_of message,loop.dropped_calls⟩ := by
        rw [convert_message,if_neg passed]
        exact gives_bind.mpr ⟨steps',made,gives_pure.mpr rfl⟩
      have own : left_calls config id [message] = [] := by simp [left_calls,carried]
      have others : compacted config options.unlinked id (message :: rest) =
          steps_of config options.unlinked message ++ compacted config options.unlinked id rest := by
        simp [compacted,carried]
      obtain ⟨kept,gives,same,fewer,strictly⟩ := ih later ⟨loop.steps ++ steps',loop.system ++ system_of message,loop.dropped_calls⟩
      rw [own,others,flatMap_cons,blocks_append,append_nil,nil_append]
      have fewer' := remains.fewer
      refine ⟨steps' ++ kept,gives_bind.mpr ⟨_,step,by simpa only [append_assoc] using gives⟩,?_,?_,?_⟩
      · rintro ⟨none_,others_⟩
        rw [remains.whole none_,same others_]
      · rw [blocks_append]
        omega
      · intro answered
        rw [blocks_append]
        by_cases others_ : Unanswered config id loop.dropped_calls rest
        · have hit : ∃ call ∈ answers message, call ∈ loop.dropped_calls := by
            by_contra none_
            exact answered ⟨fun call member dropped => none_ ⟨call,member,dropped⟩,others_⟩
          have := remains.strictly hit
          omega
        · have := strictly others_
          omega

end

def weather : Environment := ⟨"google",fun _ => "20"⟩

def link : Options := ⟨some "interaction-1",none,none⟩

def named : Option ProviderOptions := some [("google",[("interactionId",.string "interaction-1")])]

def answer : PromptMessage := .Tool [.ToolResult ⟨"call-1","weather",.json (.number (.PosInt 20)),none⟩] none

end Ferrin.Google.Interactions.Input
