import Ferrin.StreamText.Attempt
import Ferrin.GenerateText.RunStep

/-!
What a streamed attempt means, its reserved ids and its buffers aside: the
content it assembles, and the ledger of its calls.
-/
namespace Ferrin.StreamText
open Ferrin.GenerateText Ferrin.Approval List
open GenerateText (tool_calls)

structure Assembly where
  content : List StepContent
  parts : Open Nat
  calls : List ParsedToolCall
  queued : List ParsedToolCall
  result_ids : Finset ToolCallId
  client_outputs : Nat
  denied : Nat

def follow (approval : Option CallApproval) (call : ParsedToolCall) : List StepContent :=
  (approval.map fun approval => StepContent.ToolApprovalRequest approval.request).toList ++
    (approval.bind (·.response)).toList.map .ToolApprovalResponse ++
    if fails call then [.ToolError (invalid_tool_error call)] else []

namespace Assembly

def start : Assembly := ⟨[],.empty,[],[],∅,0,0⟩

def push (s : Assembly) (part : StepContent) : Assembly := { s with content := s.content ++ [part] }

def start_part (s : Assembly) (kind : Kind) (id : PartId) (metadata : Option ProviderMetadata) : Assembly :=
  { s with content := s.content ++ [kind.start metadata],parts := s.parts.put kind id s.content.length }

def update_part (s : Assembly) (kind : Kind) (id : PartId) (delta : Option String)
    (metadata : Option ProviderMetadata) (ends : Bool) : Except Error Assembly :=
  match s.parts.lookup kind id with
  | none => .error (.InvalidStreamPart s!"{kind.name} part `{id}` is not open")
  | some index => .ok { s with
      content := s.content.modify index (extend delta metadata)
      parts := if ends then s.parts.remove kind id else s.parts }

def add_call (ctx : LoopContext) (inputs : StepInputs) (s : Assembly) (call : ParsedToolCall)
    (approval : Option CallApproval) : Assembly :=
  { s with
    content := s.content ++ .ToolCall call :: follow approval call
    calls := s.calls ++ [call]
    queued := if ready ctx inputs call then s.queued ++ [call] else s.queued
    client_outputs := if fails call then s.client_outputs + 1 else s.client_outputs
    denied := if GenerateText.denied ctx inputs call then s.denied + 1 else s.denied }

def step (ctx : LoopContext) (inputs : StepInputs) (s : Assembly) : StreamPart → Except Error Assembly
  | .TextStart id metadata => .ok (s.start_part .text id metadata)
  | .TextDelta id delta metadata => s.update_part .text id (some delta) metadata false
  | .TextEnd id metadata => s.update_part .text id none metadata true
  | .ReasoningStart id metadata => .ok (s.start_part .reasoning id metadata)
  | .ReasoningDelta id delta metadata => s.update_part .reasoning id (some delta) metadata false
  | .ReasoningEnd id metadata => s.update_part .reasoning id none metadata true
  | .ToolCall call => do
    let parsed := parse_tool_call inputs.parse call
    return s.add_call ctx inputs parsed (← decision ctx inputs parsed)
  | .ToolResult result =>
    let part := provider_tool_result ctx.execution_tools s.calls result
    let content := if result.preliminary && !result.is_error then s.content else s.content ++ [part]
    .ok { s with content,result_ids := insert result.tool_call_id s.result_ids }
  | .ToolApprovalRequest approval_id tool_call_id metadata =>
    match findCall s.calls tool_call_id with
    | none => .error (.ToolCallNotFoundForApproval tool_call_id approval_id)
    | some call => .ok (s.push (.ToolApprovalRequest (provider_approval_request approval_id call metadata)))
  | .File data media_type filename metadata => .ok (s.push (.File ⟨data,media_type,filename,metadata⟩))
  | .ReasoningFile data media_type metadata => .ok (s.push (.ReasoningFile ⟨data,media_type,none,metadata⟩))
  | .Source source => .ok (s.push (.Source source))
  | .Custom kind metadata => .ok (s.push (.Custom kind metadata))
  | _ => .ok s

def finish (inputs : StepInputs) (s : Assembly) (finish_reason : FinishReason) : Except Error ModelCallEnd := do
  check_tool_choice inputs.parse.tool_choice s.calls
  return ⟨finish_reason,s.calls,s.queued,s.result_ids,s.client_outputs,s.denied⟩

end Assembly

/-! ### The ledger of an assembly -/

section
variable {ctx : LoopContext} {inputs : StepInputs}

structure Assembly.Kept (ctx : LoopContext) (inputs : StepInputs) (s : Assembly) : Prop where
  calls : tool_calls s.content = s.calls
  resolved : ∀ call ∈ s.calls, ∃ approval, decision ctx inputs call = .ok approval
  parts : s.content.flatMap (tool_part ctx.tools) =
    s.calls.flatMap fun call => (early ctx inputs call).flatMap (tool_part ctx.tools)
  queued : s.queued = s.calls.filter (ready ctx inputs)
  client_outputs : s.client_outputs = s.calls.countP fails
  denied : s.denied = s.calls.countP (GenerateText.denied ctx inputs)

theorem Assembly.kept_start : Assembly.Kept ctx inputs .start := ⟨rfl,by simp [start],rfl,rfl,rfl,rfl⟩

theorem Assembly.Kept.quiet {s t : Assembly} (kept : s.Kept ctx inputs)
    (calls : tool_calls t.content = tool_calls s.content)
    (parts : t.content.flatMap (tool_part ctx.tools) = s.content.flatMap (tool_part ctx.tools))
    (same : t.calls = s.calls) (queued : t.queued = s.queued) (outputs : t.client_outputs = s.client_outputs)
    (denials : t.denied = s.denied) : t.Kept ctx inputs where
  calls := by rw [calls,same,kept.calls]
  resolved := same ▸ kept.resolved
  parts := by rw [parts,same,kept.parts]
  queued := by rw [queued,same,kept.queued]
  client_outputs := by rw [outputs,same,kept.client_outputs]
  denied := by rw [denials,same,kept.denied]

theorem extend_quiet (delta : Option String) (metadata : Option ProviderMetadata) (part : StepContent)
    (tools : ToolSet) : (extend delta metadata part).asToolCall = part.asToolCall ∧
      tool_part tools (extend delta metadata part) = tool_part tools part := by
  cases part <;> exact ⟨rfl,rfl⟩

theorem modify_quiet (delta : Option String) (metadata : Option ProviderMetadata) (tools : ToolSet)
    (content : List StepContent) : ∀ index,
    tool_calls (content.modify index (extend delta metadata)) = tool_calls content ∧
    (content.modify index (extend delta metadata)).flatMap (tool_part tools) = content.flatMap (tool_part tools) := by
  unfold GenerateText.tool_calls
  induction content with
  | nil => intro index; simp
  | cons part _ ih =>
    intro index
    cases index with
    | zero =>
      have same := extend_quiet delta metadata part tools
      simp [filterMap_cons,same.1,same.2]
    | succ index =>
      have later := ih index
      simp [filterMap_cons,later.1,later.2]

theorem Assembly.Kept.after_push {s : Assembly} {part : StepContent} (kept : s.Kept ctx inputs)
    (noCall : part.asToolCall = none) (silent : tool_part ctx.tools part = []) : (s.push part).Kept ctx inputs :=
  kept.quiet (by simp [push,GenerateText.tool_calls,noCall]) (by simp [push,silent]) rfl rfl rfl rfl

theorem Assembly.Kept.after_update {s t : Assembly} {kind : Kind} {id : PartId} {delta : Option String}
    {metadata : Option ProviderMetadata} {ends : Bool} (kept : s.Kept ctx inputs)
    (updated : s.update_part kind id delta metadata ends = .ok t) : t.Kept ctx inputs := by
  unfold update_part at updated
  split at updated
  · cases updated
  · next index found =>
    cases updated
    have quiet := modify_quiet delta metadata ctx.tools s.content index
    exact kept.quiet quiet.1 quiet.2 rfl rfl rfl rfl

theorem Assembly.Kept.after_call {s : Assembly} {call : ParsedToolCall} {approval : Option CallApproval}
    (kept : s.Kept ctx inputs) (decided : decision ctx inputs call = .ok approval) :
    (s.add_call ctx inputs call approval).Kept ctx inputs := by
  have known := approval_of_ok decided
  have followed : (follow approval call).filterMap (·.asToolCall) = [] := by
    unfold follow
    cases approval with
    | none => cases fails call <;> simp [StepContent.asToolCall]
    | some approval => cases approval.response <;> cases fails call <;> simp [StepContent.asToolCall]
  have answered : (follow approval call).flatMap (tool_part ctx.tools) =
      (early ctx inputs call).flatMap (tool_part ctx.tools) := by
    unfold follow early
    rw [known]
    cases approval with
    | none => rfl
    | some => simp [tool_part]
  refine ⟨?_,?_,?_,?_,?_,?_⟩
  · have before := kept.calls
    unfold GenerateText.tool_calls at before ⊢
    show (s.content ++ .ToolCall call :: follow approval call).filterMap _ = s.calls ++ [call]
    rw [filterMap_append,filterMap_cons,before,followed]
    rfl
  · intro other mem
    rcases List.mem_append.mp mem with old | new
    · exact kept.resolved other old
    · exact ⟨approval,(List.mem_singleton.mp new).symm ▸ decided⟩
  · simp [add_call,kept.parts,answered,tool_part]
  · cases isReady : ready ctx inputs call <;> simp [add_call,isReady,kept.queued]
  · cases failing : fails call <;> simp [add_call,failing,kept.client_outputs]
  · cases isDenied : GenerateText.denied ctx inputs call <;> simp [add_call,isDenied,kept.denied]

theorem Assembly.Kept.after_step {s t : Assembly} {part : StreamPart} (kept : s.Kept ctx inputs)
    (stepped : s.step ctx inputs part = .ok t) : t.Kept ctx inputs := by
  cases part <;> simp only [step] at stepped
  case TextDelta | TextEnd | ReasoningDelta | ReasoningEnd => exact kept.after_update stepped
  case TextStart id metadata | ReasoningStart id metadata =>
    cases stepped
    exact kept.quiet (by simp [start_part,GenerateText.tool_calls,Kind.start,StepContent.asToolCall])
      (by simp [start_part,Kind.start,tool_part]) rfl rfl rfl rfl
  case ToolCall call =>
    obtain ⟨_,decided,stepped⟩ := Result.bind_ok.mp stepped
    cases stepped
    exact kept.after_call decided
  case ToolResult result =>
    cases stepped
    have hosted := @provider_tool_result_hosted ctx.execution_tools s.calls result ctx.tools
    refine kept.quiet ?_ ?_ rfl rfl rfl rfl
    · split_ifs
      · rfl
      · simp [GenerateText.tool_calls,hosted.2.1]
    · split_ifs
      · rfl
      · simp [hosted.1]
  case ToolApprovalRequest approval_id tool_call_id metadata =>
    split at stepped
    · cases stepped
    · cases stepped
      exact kept.after_push rfl rfl
  all_goals
    cases stepped
    first | exact kept | exact kept.after_push rfl rfl

theorem Assembly.Kept.after_run (parts : List StreamPart) : ∀ {s t : Assembly}, s.Kept ctx inputs →
    parts.foldlM (Assembly.step ctx inputs) s = .ok t → t.Kept ctx inputs := by
  induction parts with
  | nil => intro s t kept done; cases done; exact kept
  | cons _ _ ih =>
    intro s t kept done
    rw [foldlM_cons] at done
    obtain ⟨_,stepped,done⟩ := Result.bind_ok.mp done
    exact ih (kept.after_step stepped) done

end

end Ferrin.StreamText
