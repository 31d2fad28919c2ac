import Ferrin.GenerateText.ResponseMessages

/-!
The order in which the outputs of the client tools stand in a step does not
reach the messages: they are sorted by their calls.
-/
namespace Ferrin.GenerateText
open List

def is_client_output : StepContent → Bool
  | .ToolResult result => !result.provider_executed
  | .ToolError error => !error.provider_executed
  | _ => false

def about : StepContent → Option ToolCallId
  | .ToolApprovalResponse response => some response.tool_call.tool_call_id
  | .ToolResult result => if result.provider_executed then none else some result.tool_call_id
  | .ToolError error => if error.provider_executed then none else some error.tool_call_id
  | .ToolOutputDenied denied => if denied.provider_executed then none else some denied.tool_call_id
  | _ => none

/-- No output stands before the approval response, or the denial, of its own call. -/
def BehindApprovals (content : List StepContent) : Prop :=
  content.Pairwise fun earlier later => is_client_output earlier → is_client_output later = false →
    about later ≠ none → about earlier ≠ about later

instance (content : List StepContent) : Decidable (BehindApprovals content) :=
  inferInstanceAs (Decidable (content.Pairwise fun earlier later => is_client_output earlier →
    is_client_output later = false → about later ≠ none → about earlier ≠ about later))

theorem about_of_tool_part {tools : ToolSet} {part : StepContent} {x : ToolCallId × ToolPart}
    (mem : x ∈ tool_part tools part) : about part = some x.1 := by
  cases part with
  | ToolApprovalResponse =>
    unfold tool_part at mem
    dsimp only at mem
    split_ifs at mem
    · cases List.mem_singleton.mp mem
      rfl
    · rcases List.mem_pair.mp mem with rfl | rfl <;> rfl
  | ToolResult | ToolError | ToolOutputDenied =>
    unfold tool_part at mem
    dsimp only at mem
    split_ifs at mem with provider
    · cases mem
    · cases List.mem_singleton.mp mem
      simp [about,provider]
  | _ => cases mem

theorem filter_tool_part (tools : ToolSet) (content : List StepContent) (id : ToolCallId) :
    (content.flatMap (tool_part tools)).filter (·.1 = id) =
      (content.filter (about · = some id)).flatMap (tool_part tools) := by
  induction content with
  | nil => rfl
  | cons part _ ih =>
    rw [flatMap_cons,filter_append,ih]
    by_cases here : about part = some id
    · have all : (tool_part tools part).filter (·.1 = id) = tool_part tools part := by
        refine List.filter_eq_self.mpr fun x member => ?_
        simpa [here,eq_comm] using about_of_tool_part member
      rw [all,filter_cons_of_pos (by simpa using here),flatMap_cons]
    · have none : (tool_part tools part).filter (·.1 = id) = [] := by
        refine List.filter_eq_nil_iff.mpr fun x member same => here ?_
        rw [about_of_tool_part member,of_decide_eq_true same]
      rw [none,filter_cons_of_neg (by simpa using here),nil_append]

theorem filter_append_filter {α : Type} {p : α → Bool} {l : List α}
    (apart : l.Pairwise fun earlier later => p earlier → p later) : l = l.filter (!p ·) ++ l.filter p := by
  induction l with
  | nil => rfl
  | cons a rest ih =>
    obtain ⟨first,later⟩ := List.pairwise_cons.mp apart
    by_cases here : p a
    · have all : rest.filter p = rest := List.filter_eq_self.mpr fun b member => first b member here
      have none : rest.filter (!p ·) = [] :=
        List.filter_eq_nil_iff.mpr fun b member => by simpa using first b member here
      simp [here,all,none]
    · simpa [here] using ih later

theorem eq_of_perm_of_le_one {α : Type} {l m : List α} (perm : l.Perm m) (short : l.length ≤ 1) : l = m := by
  cases l with
  | nil => exact perm.nil_eq
  | cons a rest =>
    cases rest with
    | nil => exact (List.perm_singleton.mp perm.symm).symm
    | cons => simp at short

section
variable {content content' : List StepContent}

theorem filter_about (others : content.filter (!is_client_output ·) = content'.filter (!is_client_output ·))
    (outputs : (content.filter is_client_output).Perm (content'.filter is_client_output))
    (distinct : ((content.filter is_client_output).filterMap about).Nodup) (behind : BehindApprovals content)
    (behind' : BehindApprovals content') (id : ToolCallId) :
    content.filter (about · = some id) = content'.filter (about · = some id) := by
  have parts {l : List StepContent} (apart : BehindApprovals l) : l.filter (about · = some id) =
      (l.filter (!is_client_output ·)).filter (about · = some id) ++
        (l.filter is_client_output).filter (about · = some id) := by
    have pairwise : (l.filter (about · = some id)).Pairwise fun earlier later =>
        is_client_output earlier → is_client_output later := by
      refine (List.Pairwise.and_mem.mp (apart.filter _)).imp ?_
      rintro _ _ ⟨first,second,rule⟩ output
      by_contra other
      have here := of_decide_eq_true (List.mem_filter.mp first).2
      have there := of_decide_eq_true (List.mem_filter.mp second).2
      exact rule output (by simpa using other) (by simp [there]) (here.trans there.symm)
    rw [filter_append_filter pairwise]
    simp only [filter_filter,Bool.and_comm]
  have short : ((content.filter is_client_output).filter (about · = some id)).length ≤ 1 := by
    have count := List.nodup_iff_count_le_one.mp distinct id
    refine le_trans (le_of_eq ?_) count
    induction content.filter is_client_output with
    | nil => rfl
    | cons part _ ih =>
      by_cases here : about part = some id
      · simp [here,ih]
      · cases there : about part with
        | none => simp [there,ih]
        | some other =>
          have differs : other ≠ id := fun same => here (there.trans (congrArg some same))
          simp [there,differs,ih]
  rw [parts behind,parts behind',others,eq_of_perm_of_le_one (outputs.filter _) short]

theorem filterMap_of_others {α : Type} {read : StepContent → Option α} {l : List StepContent}
    (nothing : ∀ part, is_client_output part → read part = none) :
    (l.filter (!is_client_output ·)).filterMap read = l.filterMap read := by
  induction l with
  | nil => rfl
  | cons part _ ih =>
    cases output : is_client_output part with
    | true => simp [output,nothing part output,ih]
    | false => cases value : read part <;> simp [output,value,ih]

theorem tool_calls_of_others (l : List StepContent) : tool_calls (l.filter (!is_client_output ·)) = tool_calls l := by
  refine filterMap_of_others fun part output => ?_
  cases part <;> first | rfl | cases output

theorem assistant_parts_of_others (tools : ToolSet) (l : List StepContent) :
    assistant_parts tools (l.filter (!is_client_output ·)) = assistant_parts tools l := by
  refine filterMap_of_others fun part output => ?_
  cases part with
  | ToolResult result | ToolError error => simpa [is_client_output,assistant_part] using output
  | _ => cases output

theorem tool_call_order_of_others (others : content.filter (!is_client_output ·) = content'.filter (!is_client_output ·)) :
    tool_call_order content = tool_call_order content' := by
  rw [tool_call_order,tool_call_order,← tool_calls_of_others content,others,tool_calls_of_others]

theorem filter_of_unknown {tools : ToolSet} {place : Nat} {order : List ToolCallId} {l : List StepContent}
    (called : ∀ part ∈ l, is_client_output part → ∃ id ∈ order, about part = some id)
    (unknown : ∀ id ∈ order, order.idxOf id ≠ place) :
    (l.flatMap (tool_part tools)).filter (order.idxOf ·.1 = place) =
      ((l.filter (!is_client_output ·)).flatMap (tool_part tools)).filter (order.idxOf ·.1 = place) := by
  induction l with
  | nil => rfl
  | cons part _ ih =>
    have later := ih fun other mem => called other (mem_cons_of_mem part mem)
    cases output : is_client_output part with
    | false => simp [output,filter_append,later]
    | true =>
      obtain ⟨id,known,here⟩ := called part mem_cons_self output
      have none : (tool_part tools part).filter (order.idxOf ·.1 = place) = [] := by
        refine List.filter_eq_nil_iff.mpr fun x mem same => unknown id known ?_
        rw [Option.some.inj (here.symm.trans (about_of_tool_part mem))]
        exact of_decide_eq_true same
      simp [output,filter_append,none,later]

theorem to_response_messages_eq (tools : ToolSet)
    (others : content.filter (!is_client_output ·) = content'.filter (!is_client_output ·))
    (outputs : (content.filter is_client_output).Perm (content'.filter is_client_output))
    (called : ∀ part ∈ content, is_client_output part → ∃ id ∈ tool_call_order content, about part = some id)
    (distinct : ((content.filter is_client_output).filterMap about).Nodup) (behind : BehindApprovals content)
    (behind' : BehindApprovals content') : to_response_messages tools content = to_response_messages tools content' := by
  have order := tool_call_order_of_others others
  have assistant : assistant_parts tools content = assistant_parts tools content' := by
    rw [← assistant_parts_of_others tools content,others,assistant_parts_of_others]
  have called' : ∀ part ∈ content', is_client_output part → ∃ id ∈ tool_call_order content, about part = some id := by
    intro part mem output
    have before : part ∈ content.filter is_client_output :=
      outputs.mem_iff.mpr (List.mem_filter.mpr ⟨mem,output⟩)
    exact called part (mem_of_mem_filter before) output
  have sorted : tool_parts tools content = tool_parts tools content' := by
    have same_order : order_of content' = order_of content := by
      funext id
      rw [order_of,order_of,order]
    rw [tool_parts,tool_parts,same_order]
    refine congrArg (List.map _) (StableSort.sortByKey_eq fun place => ?_)
    by_cases known : ∃ id ∈ tool_call_order content, order_of content id = place
    · obtain ⟨id,inside,here⟩ := known
      have by_id (x : ToolCallId × ToolPart) : decide (order_of content x.1 = place) = decide (x.1 = id) := by
        rw [← here]
        exact decide_eq_decide.mpr (eq_comm.trans ((idxOf_inj inside).trans eq_comm))
      simp only [by_id]
      rw [filter_tool_part,filter_tool_part,filter_about others outputs distinct behind behind']
    · have unknown : ∀ id ∈ tool_call_order content, (tool_call_order content).idxOf id ≠ place :=
        fun id inside here => known ⟨id,inside,here⟩
      exact (filter_of_unknown called unknown).trans ((congrArg _ (congrArg _ others)).trans
        (filter_of_unknown called' unknown).symm)
  rw [to_response_messages,to_response_messages,assistant,sorted]

end

end Ferrin.GenerateText
