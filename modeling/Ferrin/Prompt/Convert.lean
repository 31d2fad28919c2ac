import Ferrin.Error
import Ferrin.Library.Assoc
import Ferrin.Library.Result

/-!
The conversion of messages into a prompt, and the check that no tool call of
the client is left without a result.
-/
namespace Ferrin.Prompt

/-- What a conversion needs from outside: files, downloads and tool outputs are resolved by functions. -/
structure ConvertContext where
  convert_user_part : UserPart → Except Error UserPromptPart
  file_data : FileSource → Message → Except Error (FileData × Option MediaType)
  convert_output : ToolResultOutput → Except Error ToolResultOutput
  merge_provider_options : ProviderOptions → ProviderOptions → ProviderOptions

def convert_user (ctx : ConvertContext) (content : UserContent) (provider_options : Option ProviderOptions) :
    Except Error PromptMessage :=
  match content with
  | .Text text => .ok (.User [.Text ⟨text,none⟩] provider_options)
  | .Parts parts => do
    let kept := parts.filter fun
      | .Text part => part.text ≠ ""
      | _ => true
    return .User (← kept.mapM ctx.convert_user_part) provider_options

def convert_result (ctx : ConvertContext) (result : ToolResultPart) : Except Error ToolResultPart := do
  let output ← ctx.convert_output result.output
  return { result with output }

def convert_assistant_part (ctx : ConvertContext) (original : Message) :
    AssistantPart → Except Error (Option AssistantPromptPart)
  | .Text part => .ok (if part.text = "" ∧ part.provider_options = none then none else some (.Text part))
  | .Custom part => .ok (some (.Custom part))
  | .Reasoning part => .ok (some (.Reasoning part))
  | .File part => do
    let (data,media_type) ← ctx.file_data part.data original
    return some (.File ⟨data,media_type.getD part.media_type,part.filename,part.provider_options⟩)
  | .ReasoningFile part => do
    let (data,media_type) ← ctx.file_data part.data original
    match data with
    | .Bytes _ | .Url _ => return some (.ReasoningFile ⟨data,media_type.getD part.media_type,part.provider_options⟩)
    | _ => .error (.MessageConversion "reasoning files require inline data or a URL" original)
  | .ToolCall part => .ok (some (.ToolCall part))
  | .ToolResult part => do return some (.ToolResult (← convert_result ctx part))
  | .ToolApprovalRequest _ => .ok none

def convert_assistant (ctx : ConvertContext) (content : AssistantContent) (provider_options : Option ProviderOptions)
    (original : Message) : Except Error PromptMessage :=
  match content with
  | .Text text => .ok (.Assistant [.Text ⟨text,none⟩] provider_options)
  | .Parts parts => do
    let converted ← parts.mapM (convert_assistant_part ctx original)
    return .Assistant (converted.filterMap id) provider_options

def convert_tool_part (ctx : ConvertContext) : ToolPart → Except Error (Option ToolPromptPart)
  | .ToolResult result => do return some (.ToolResult (← convert_result ctx result))
  | .ToolApprovalResponse response =>
    .ok (if response.provider_executed then
      some (.ToolApprovalResponse ⟨response.approval_id,response.approved,response.reason,none⟩) else none)

def convert_tool (ctx : ConvertContext) (content : List ToolPart) (provider_options : Option ProviderOptions) :
    Except Error PromptMessage := do
  let converted ← content.mapM (convert_tool_part ctx)
  return .Tool (converted.filterMap id) provider_options

def convert_message (ctx : ConvertContext) (message : Message) : Except Error PromptMessage :=
  match message with
  | .System content provider_options => .ok (.System content provider_options)
  | .User content provider_options => convert_user ctx content provider_options
  | .Assistant content provider_options => convert_assistant ctx content provider_options message
  | .Tool content provider_options => convert_tool ctx content provider_options

/-- The options of a message that is merged away go to its last part. -/
def attach_options (ctx : ConvertContext) (options : ProviderOptions) : ToolPromptPart → ToolPromptPart
  | .ToolResult part =>
    .ToolResult { part with provider_options := some (ctx.merge_provider_options options (part.provider_options.getD [])) }
  | .ToolApprovalResponse part => .ToolApprovalResponse
      { part with provider_options := some (ctx.merge_provider_options options (part.provider_options.getD [])) }

/-- Tool messages in a row become one. -/
def append_message (ctx : ConvertContext) (prompt : Prompt) (message : PromptMessage) : Prompt :=
  match message with
  | .Tool content provider_options =>
    match prompt.getLast? with
    | some (.Tool previous previous_options) =>
      let previous := match previous.getLast?,previous_options with
        | some part,some options => previous.dropLast ++ [attach_options ctx options part]
        | _,_ => previous
      prompt.dropLast ++ [.Tool (previous ++ content) provider_options]
    | _ => prompt ++ [message]
  | _ => prompt ++ [message]

/-! ### Missing results -/

def approval_calls (messages : List Message) : List (ApprovalId × ToolCallId) :=
  (messages.flatMap fun
    | .Assistant content _ => content.as_parts.filterMap (·.as_tool_approval_request)
    | _ => []).foldl (fun map request => Assoc.put map request.approval_id request.tool_call_id) []

def exempt (messages : List Message) : List ToolCallId :=
  (messages.flatMap fun
    | .Tool content _ => content.filterMap (·.as_tool_approval_response)
    | _ => []).filterMap fun response => (approval_calls messages).lookup response.approval_id

def open_call (pending : List ToolCallId) : AssistantPromptPart → List ToolCallId
  | .ToolCall call =>
    if call.provider_executed ∨ call.tool_call_id ∈ pending then pending else pending ++ [call.tool_call_id]
  | _ => pending

def answer_call (pending : List ToolCallId) : ToolPromptPart → List ToolCallId
  | .ToolResult result => pending.filter (· ≠ result.tool_call_id)
  | _ => pending

def pending_after (pending : List ToolCallId) : PromptMessage → List ToolCallId
  | .Assistant content _ => content.foldl open_call pending
  | .Tool content _ => content.foldl answer_call pending
  | _ => pending

def require_tool_results (pending : List ToolCallId) : Except Error Unit :=
  if pending = [] then .ok ()
  else .error (.InvalidPrompt ("missing tool results for calls: " ++ String.intercalate ", " pending))

def check_pending (exempt : List ToolCallId) : List ToolCallId → Prompt → Except Error Unit
  | pending, [] => require_tool_results (pending.filter (· ∉ exempt))
  | pending, message :: rest =>
    match message with
    | .User .. | .System .. => do
      let pending := pending.filter (· ∉ exempt)
      require_tool_results pending
      check_pending exempt pending rest
    | _ => check_pending exempt (pending_after pending message) rest

def validate_tool_results (prompt : Prompt) (messages : List Message) : Except Error Unit :=
  check_pending (exempt messages) [] prompt

def is_empty_tool : PromptMessage → Bool
  | .Tool [] _ => true
  | _ => false

/-- The prompt before its check. The instructions come first. -/
def convert_messages (ctx : ConvertContext) (system : Prompt) (messages : List Message) : Except Error Prompt := do
  let converted ← messages.mapM (convert_message ctx)
  return converted.foldl (append_message ctx) system

def convert_to_prompt (ctx : ConvertContext) (system : Prompt) (messages : List Message) : Except Error Prompt := do
  let prompt ← convert_messages ctx system messages
  validate_tool_results prompt messages
  return prompt.filter (!is_empty_tool ·)

section
variable {ctx : ConvertContext}

@[simp] theorem require_nil : require_tool_results [] = .ok () := rfl

theorem require_ok {pending : List ToolCallId} : require_tool_results pending = .ok () ↔ pending = [] := by
  unfold require_tool_results
  split_ifs with none
  · simp [none]
  · simp [none]

theorem check_pending_append {exempt : List ToolCallId} (before : Prompt) :
    ∀ pending, check_pending exempt pending before = .ok () → ∃ left, (∀ id ∈ left, id ∈ exempt) ∧
      ∀ after, check_pending exempt pending (before ++ after) = check_pending exempt left after := by
  induction before with
  | nil =>
    intro pending passed
    have allExempt := List.filter_eq_nil_iff.mp (require_ok.mp passed)
    exact ⟨pending,fun id mem => by simpa using allExempt id mem,fun after => rfl⟩
  | cons message rest ih =>
    intro pending passed
    cases message with
    | System content options | User content options =>
      obtain ⟨_,required,passed⟩ := Result.bind_ok.mp passed
      obtain ⟨left,leftExempt,goesOn⟩ := ih _ passed
      refine ⟨left,leftExempt,fun after => ?_⟩
      show (do require_tool_results _; check_pending _ _ (rest ++ after)) = _
      rw [required,goesOn]
      rfl
    | Assistant content options | Tool content options =>
      obtain ⟨left,leftExempt,goesOn⟩ := ih _ passed
      exact ⟨left,leftExempt,goesOn⟩

theorem mem_pending_assistant {content : List AssistantPromptPart} {options : Option ProviderOptions} {id : ToolCallId} :
    ∀ {pending : List ToolCallId}, id ∈ pending_after pending (.Assistant content options) → id ∈ pending ∨
      ∃ call, .ToolCall call ∈ content ∧ call.provider_executed = false ∧ call.tool_call_id = id := by
  induction content with
  | nil => intro pending mem; exact .inl mem
  | cons part rest ih =>
    intro pending mem
    have later : id ∈ pending_after (open_call pending part) (.Assistant rest options) := mem
    rcases ih later with here | ⟨call,later,client,same⟩
    · cases part with
      | ToolCall call =>
        simp only [open_call] at here
        split_ifs at here with skipped
        · exact .inl here
        · rcases List.mem_append.mp here with old | new
          · exact .inl old
          · obtain ⟨hosted,-⟩ := not_or.mp skipped
            exact .inr ⟨call,List.mem_cons_self,by simpa using hosted,(List.mem_singleton.mp new).symm⟩
      | _ => exact .inl here
    · exact .inr ⟨call,List.mem_cons_of_mem part later,client,same⟩

theorem mem_pending_tool {content : List ToolPromptPart} {options : Option ProviderOptions} {id : ToolCallId} :
    ∀ {pending : List ToolCallId}, id ∈ pending_after pending (.Tool content options) →
      id ∈ pending ∧ ∀ result, .ToolResult result ∈ content → result.tool_call_id ≠ id := by
  induction content with
  | nil => intro pending mem; exact ⟨mem,by simp⟩
  | cons part rest ih =>
    intro pending mem
    have later : id ∈ pending_after (answer_call pending part) (.Tool rest options) := mem
    obtain ⟨here,others⟩ := ih later
    cases part with
    | ToolResult =>
      obtain ⟨old,differs⟩ := List.mem_filter.mp here
      refine ⟨old,fun other present => ?_⟩
      rcases List.mem_cons.mp present with same | later
      · cases same
        exact fun same => (of_decide_eq_true differs) same.symm
      · exact others other later
    | ToolApprovalResponse =>
      refine ⟨here,fun other present => ?_⟩
      rcases List.mem_cons.mp present with same | later
      · cases same
      · exact others other later

theorem convert_messages_append {system prompt : Prompt} {before after : List Message}
    (converted : convert_messages ctx system before = .ok prompt) :
    convert_messages ctx system (before ++ after) = convert_messages ctx prompt after := by
  unfold convert_messages at converted ⊢
  obtain ⟨early,first,done⟩ := Result.bind_ok.mp converted
  cases done
  rw [List.mapM_append,first]
  cases after.mapM (convert_message ctx) with
  | error => rfl
  | ok late =>
    show Except.ok ((early ++ late).foldl _ _) = Except.ok _
    rw [List.foldl_append]

end

end Ferrin.Prompt
