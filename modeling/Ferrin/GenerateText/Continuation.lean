import Ferrin.GenerateText.Ledger
import Ferrin.Prompt.Convert

/-!
What it means that the loop goes on after a step. The counters compare sums, so
they notice an open call of the client unless the provider's own calls were
denied just as often (`Ledger.sound_iff`).
-/
namespace Ferrin.GenerateText
open Ferrin.Approval Ferrin.Prompt List
open List (mem_filterMap mem_flatMap)
open Result (bind_ok mapM_ok)

/-- Messages that leave no call without a result: where the prompt before them passes its check, the prompt with
them does. -/
def ResultsComplete (messages : List Message) : Prop :=
  ∀ (ctx : ConvertContext) (system : Prompt) (before : List Message) (prompt whole : Prompt),
    convert_messages ctx system before = .ok prompt → convert_messages ctx system (before ++ messages) = .ok whole →
    check_pending (exempt (before ++ messages)) [] prompt = .ok () →
    validate_tool_results whole (before ++ messages) = .ok ()

/-- When the loop goes on for calls of the client, each has its outcome, and the next prompt is not short of one. -/
def ContinuesSoundly (r : StepResult) : Prop :=
  r.state.should_continue = true → r.state.client_tool_calls > 0 →
    (∀ call ∈ tool_calls r.content, call.provider_executed = false → Settled r.content call) ∧
      ResultsComplete r.messages

/-! ### The next prompt -/

section
variable {tools : ToolSet} {content : List StepContent}

theorem settled_iff {call : ParsedToolCall} : Settled content call ↔
    ∃ result, (call.tool_call_id,.ToolResult result) ∈ content.flatMap (tool_part tools) := by
  constructor
  · rintro ⟨part,mem,settles⟩
    obtain ⟨result,here⟩ := settles_iff.mp settles
    exact ⟨result,mem_flatMap.mpr ⟨part,mem,here⟩⟩
  · rintro ⟨result,mem⟩
    obtain ⟨part,here,found⟩ := mem_flatMap.mp mem
    exact ⟨part,here,settles_iff.mpr ⟨result,found⟩⟩

theorem assistant_call {part : ToolCallPart} (mem : .ToolCall part ∈ assistant_parts tools content) :
    ∃ call ∈ tool_calls content, call.tool_call_id = part.tool_call_id ∧
      call.provider_executed = part.provider_executed := by
  obtain ⟨source,here,converted⟩ := mem_filterMap.mp mem
  cases source <;> simp only [assistant_part] at converted
  case ToolCall call =>
    cases converted
    exact ⟨call,mem_filterMap.mpr ⟨_,here,rfl⟩,rfl,rfl⟩
  all_goals first | cases converted | (split_ifs at converted; try cases converted)

theorem assistant_parts_ne_nil {call : ParsedToolCall} (mem : call ∈ tool_calls content) :
    assistant_parts tools content ≠ [] := by
  obtain ⟨source,here,found⟩ := mem_filterMap.mp mem
  cases source <;> simp only [StepContent.asToolCall] at found <;> cases found
  exact ne_nil_of_mem (mem_filterMap.mpr ⟨_,here,rfl⟩)

theorem mem_tool_parts {part : ToolPart} :
    part ∈ tool_parts tools content ↔ ∃ id, (id,part) ∈ content.flatMap (tool_part tools) := by
  unfold tool_parts
  rw [mem_map]
  constructor
  · rintro ⟨⟨id,_⟩,mem,rfl⟩
    exact ⟨id,(StableSort.sortByKey_perm _ _).mem_iff.mp mem⟩
  · rintro ⟨id,mem⟩
    exact ⟨(id,part),(StableSort.sortByKey_perm _ _).mem_iff.mpr mem,rfl⟩

theorem response_messages_both {call : ParsedToolCall} (mem : call ∈ tool_calls content)
    (settled : Settled content call) : to_response_messages tools content =
      [.assistant_parts (assistant_parts tools content),.tool (tool_parts tools content)] := by
  have assistant := @assistant_parts_ne_nil tools content call mem
  obtain ⟨_,here⟩ := (@settled_iff tools content call).mp settled
  have tool : tool_parts tools content ≠ [] := ne_nil_of_mem (mem_tool_parts.mpr ⟨_,here⟩)
  unfold to_response_messages
  cases first : assistant_parts tools content with
  | nil => exact absurd first assistant
  | cons =>
    cases second : tool_parts tools content with
    | nil => exact absurd second tool
    | cons => rfl

theorem results_complete (settled : ∀ call ∈ tool_calls content, call.provider_executed = false → Settled content call)
    (client : ∃ call ∈ tool_calls content, call.provider_executed = false) :
    ResultsComplete (to_response_messages tools content) := by
  intro ctx system before prompt whole earlier converted passed
  obtain ⟨call,mem,isClient⟩ := client
  rw [convert_messages_append earlier,
    @response_messages_both tools content call mem (settled call mem isClient)] at converted
  obtain ⟨_,each,folded⟩ := bind_ok.mp converted
  cases folded
  rcases mapM_ok.mp each with _ | ⟨convertedA,others⟩
  rcases others with _ | ⟨convertedT,nothing⟩
  cases nothing
  obtain ⟨_,mappedA,isA⟩ := bind_ok.mp convertedA
  cases isA
  obtain ⟨_,mappedT,isT⟩ := bind_ok.mp convertedT
  cases isT
  have shape : ∀ a t, [PromptMessage.Assistant a none,.Tool t none].foldl (append_message ctx) prompt =
      prompt ++ [.Assistant a none,.Tool t none] := by
    intro a t
    simp [append_message]
  obtain ⟨_,leftExempt,goesOn⟩ := check_pending_append prompt [] passed
  unfold validate_tool_results
  rw [shape,goesOn]
  show require_tool_results _ = _
  refine require_ok.mpr (List.filter_eq_nil_iff.mpr fun id stillOpen => ?_)
  obtain ⟨opened,unanswered⟩ := mem_pending_tool stillOpen
  rcases mem_pending_assistant opened with old | ⟨part,present,partClient,same⟩
  · simpa using leftExempt id old
  · -- a client call of the step: its result is in the tool message
    exfalso
    obtain ⟨_,inList,isSome⟩ := mem_filterMap.mp present
    obtain ⟨source,inMessage,fromSource⟩ := Result.each_right (mapM_ok.mp mappedA) inList
    cases isSome
    have sameCall : source = .ToolCall part := by
      cases source <;> simp only [convert_assistant_part] at fromSource
      case ToolCall => cases fromSource; rfl
      case Text => split_ifs at fromSource <;> cases fromSource
      case ToolResult => obtain ⟨_,-,wrong⟩ := bind_ok.mp fromSource; cases wrong
      case File => obtain ⟨_,-,wrong⟩ := bind_ok.mp fromSource; cases wrong
      case ReasoningFile =>
        obtain ⟨⟨data,_⟩,-,wrong⟩ := bind_ok.mp fromSource
        cases data <;> cases wrong
      all_goals cases fromSource
    subst sameCall
    obtain ⟨source,listed,sameId,samePe⟩ := assistant_call inMessage
    obtain ⟨result,inParts⟩ := (@settled_iff tools content source).mp (settled source listed (samePe.trans partClient))
    obtain ⟨_,inTool,fromResult⟩ := Result.each_left (mapM_ok.mp mappedT) (mem_tool_parts.mpr ⟨_,inParts⟩)
    obtain ⟨_,outputOk,isResult⟩ := bind_ok.mp fromResult
    obtain ⟨_,-,isValue⟩ := bind_ok.mp outputOk
    cases isValue
    cases isResult
    obtain ⟨_,_,fromEntry⟩ := mem_flatMap.mp inParts
    refine unanswered _ (mem_filterMap.mpr ⟨_,inTool,rfl⟩) ?_
    show result.tool_call_id = id
    rw [tool_part_call fromEntry result rfl,sameId,same]

end

section
variable {ctx : LoopContext} {inputs : StepInputs} {finish_reason : FinishReason} {calls : List ParsedToolCall}
variable {r : StepResult}

def hostedDenial (ctx : LoopContext) (inputs : StepInputs) (call : ParsedToolCall) : Bool :=
  call.provider_executed && denied ctx inputs call

theorem client_partition (allowed : Bool) (calls : List ParsedToolCall) :
    calls.countP (!·.provider_executed) + calls.countP (hostedDenial ctx inputs) =
      calls.countP fails + calls.countP (denied ctx inputs) + calls.countP (fun call => allowed && ready ctx inputs call) +
        calls.countP (waits ctx inputs · allowed) := by
  induction calls with
  | nil => rfl
  | cons call =>
    have exclusive : denied ctx inputs call = true → call.invalid = false ∧ held ctx inputs call = true := denied_held
    simp only [countP_cons]
    have here : (if (!call.provider_executed) = true then 1 else 0) +
        (if hostedDenial ctx inputs call = true then 1 else 0) =
        (if fails call = true then 1 else 0) + (if denied ctx inputs call = true then 1 else 0) +
        (if (allowed && ready ctx inputs call) = true then 1 else 0) +
        (if waits ctx inputs call allowed = true then 1 else 0) := by
      unfold hostedDenial fails waits ready
      cases call.provider_executed <;> cases invalid : call.invalid <;> cases isDenied : denied ctx inputs call <;>
        cases isHeld : held ctx inputs call <;> cases allowed <;> cases (executable ctx call).isSome <;> simp_all
    omega

section
variable (ledger : Ledger ctx inputs finish_reason calls r)
include ledger

theorem Ledger.executed_length : r.executed.length =
    calls.countP fun call => is_tool_execution_allowed finish_reason && ready ctx inputs call := by
  rw [ledger.executed]
  cases is_tool_execution_allowed finish_reason with
  | true => simp [countP_eq_length_filter]
  | false => simp

theorem Ledger.should_continue_iff :
    r.state.should_continue = true ↔
      calls.countP (hostedDenial ctx inputs) = calls.countP (waits ctx inputs · (is_tool_execution_allowed finish_reason)) ∧
        (r.state.client_tool_calls > 0 ∨ r.state.pending_deferred > 0) := by
  have partition := @client_partition ctx inputs (is_tool_execution_allowed finish_reason) calls
  have executed := ledger.executed_length
  unfold LoopState.should_continue
  rw [decide_eq_true_eq,ledger.client_tool_outputs,ledger.denied_approvals,ledger.client_tool_calls]
  constructor
  · rintro ⟨same,some_⟩
    exact ⟨by omega,some_⟩
  · rintro ⟨_,some_⟩
    exact ⟨by omega,some_⟩

theorem Ledger.settled_iff_not_waiting
    (distinct : (calls.map (·.tool_call_id)).Nodup) {call : ParsedToolCall} (mem : call ∈ calls)
    (client : call.provider_executed = false) :
    Settled r.content call ↔ waits ctx inputs call (is_tool_execution_allowed finish_reason) = false := by
  have only : calls.filter (·.tool_call_id = call.tool_call_id) = [call] := by
    rcases StableSort.filter_key distinct call.tool_call_id with none | ⟨_,present,same,only⟩
    · exact absurd (List.filter_eq_nil_iff.mp none call mem) (by simp)
    · rw [only,inj_on_of_nodup_map distinct present mem same]
  have answered : Settled r.content call ↔ ∃ result, (call.tool_call_id,.ToolResult result) ∈
      verdict ctx inputs call (is_tool_execution_allowed finish_reason) := by
    rw [@settled_iff ctx.tools]
    refine exists_congr fun result => ?_
    have here := ledger.parts call.tool_call_id
    rw [only,flatMap_singleton] at here
    rw [← here,mem_filter]
    simp
  rw [answered]
  have early_iff : (∃ part ∈ early ctx inputs call, settles call.tool_call_id part = true) ↔
      denied ctx inputs call = true ∨ call.invalid = true := by
    unfold early denied fails
    cases found : approval_of ctx inputs call with
    | none => simp [client,settles,invalid_tool_error]
    | some =>
      obtain ⟨valid,_,recorded⟩ := decision_some (approval_of_some found)
      rcases (call_approval_some recorded).2 with ⟨_,answer,same,-⟩ | ⟨answer,-⟩
      · simp [answer,settles,same,valid]
      · simp [answer,valid]
  have late_iff : (is_tool_execution_allowed finish_reason && ready ctx inputs call) = true →
      ∃ part ∈ outcome ctx inputs call, settles call.tool_call_id part = true := by
    intro runs
    obtain ⟨allowed,isReady⟩ := Bool.and_eq_true_iff.mp runs
    obtain ⟨content,ran⟩ := ledger.ran call (by
      rw [ledger.executed,if_pos allowed]
      exact List.mem_filter.mpr ⟨mem,isReady⟩)
    exact ⟨content,by simp [ran],(outcome_some ran).1⟩
  constructor
  · rintro ⟨result,inVerdict⟩
    unfold waits
    unfold verdict at inVerdict
    rcases List.mem_append.mp inVerdict with before | after
    · obtain ⟨part,inEarly,found⟩ := mem_flatMap.mp before
      rcases early_iff.mp ⟨part,inEarly,settles_iff.mpr ⟨result,found⟩⟩ with isDenied | invalid
      · simp [isDenied]
      · simp [invalid]
    · split_ifs at after with runs
      · simp [runs]
      · simp at after
  · intro settled
    have cases_ : (denied ctx inputs call = true ∨ call.invalid = true) ∨
        (is_tool_execution_allowed finish_reason && ready ctx inputs call) = true := by
      unfold waits at settled
      cases isDenied : denied ctx inputs call <;> cases invalid : call.invalid <;> simp_all
    unfold verdict
    rcases cases_ with before | runs
    · obtain ⟨part,inEarly,settles⟩ := early_iff.mpr before
      obtain ⟨result,found⟩ := settles_iff.mp settles
      exact ⟨result,mem_append_left _ (mem_flatMap.mpr ⟨part,inEarly,found⟩)⟩
    · obtain ⟨part,inOutcome,settles⟩ := late_iff runs
      obtain ⟨result,found⟩ := settles_iff.mp settles
      rw [if_pos runs]
      exact ⟨result,mem_append_right _ (mem_flatMap.mpr ⟨part,inOutcome,found⟩)⟩

theorem Ledger.sound_iff
    (distinct : (calls.map (·.tool_call_id)).Nodup) : ContinuesSoundly r ↔
      calls.countP (hostedDenial ctx inputs) = 0 ∨ calls.countP (hostedDenial ctx inputs) ≠
        calls.countP (waits ctx inputs · (is_tool_execution_allowed finish_reason)) := by
  have clientCount := ledger.client_tool_calls
  constructor
  · intro sound
    by_contra failing
    obtain ⟨denials,balanced⟩ := not_or.mp failing
    have balanced := not_not.mp balanced
    obtain ⟨call,mem,waiting⟩ := List.countP_pos_iff.mp (Nat.pos_of_ne_zero (balanced ▸ denials))
    have client : call.provider_executed = false := by
      unfold waits at waiting
      simp only [Bool.and_eq_true,Bool.not_eq_true'] at waiting
      exact waiting.1.1.1
    have some_ : r.state.client_tool_calls > 0 := by
      rw [clientCount]
      exact List.countP_pos_iff.mpr ⟨call,mem,by simp [client]⟩
    have goesOn := ledger.should_continue_iff.mpr ⟨balanced,.inl some_⟩
    have settled := (sound goesOn some_).1 call (ledger.listed ▸ mem) client
    have idle := (ledger.settled_iff_not_waiting distinct mem client).mp settled
    rw [waiting] at idle
    cases idle
  · intro holds goesOn some_
    obtain ⟨balanced,-⟩ := ledger.should_continue_iff.mp goesOn
    have none : calls.countP (waits ctx inputs · (is_tool_execution_allowed finish_reason)) = 0 := by
      rcases holds with zero | differs
      · exact balanced ▸ zero
      · exact absurd balanced differs
    have settled : ∀ call ∈ tool_calls r.content, call.provider_executed = false → Settled r.content call := by
      intro call mem client
      have mem := ledger.listed ▸ mem
      refine (ledger.settled_iff_not_waiting distinct mem client).mpr ?_
      simpa using List.countP_eq_zero.mp none call mem
    refine ⟨settled,?_⟩
    rw [ledger.messages]
    refine results_complete settled ?_
    rw [clientCount] at some_
    obtain ⟨call,mem,client⟩ := List.countP_pos_iff.mp some_
    exact ⟨call,ledger.listed.symm ▸ mem,by simpa using client⟩

end

end

end Ferrin.GenerateText
