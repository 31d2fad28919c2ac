import Ferrin.Approval.Collect

/-!
Pruning protects tool-call ids and approval ids separately. A response keeps
its request under every rule; a request keeps its tool call when the tail that
protects the approval refers to the call as well.
-/
namespace Ferrin.Approval
open Ferrin.Prune List ToolCallPrune AssistantContent

instance (messages : List Message) : Decidable (ResponsesRequested messages) :=
  inferInstanceAs (Decidable (∀ response ∈ approval_responses messages,
    ∃ request ∈ approval_requests messages, request.approval_id = response.approval_id))

instance (messages : List Message) : Decidable (RequestsCalled messages) :=
  inferInstanceAs (Decidable (∀ request ∈ approval_requests messages,
    ∃ call ∈ tool_calls messages, call.tool_call_id = request.tool_call_id))

variable {messages : List Message} {options : PruneOptions} {ref : ToolRef} {rule : ToolCallPrune}

theorem mem_tool_calls {call : ToolCallPart} :
    call ∈ tool_calls messages ↔ Piece.Assistant (.ToolCall call) ∈ messages.flatMap tool_pieces := by
  simp only [tool_calls,mem_flatMap,mem_filterMap,tool_pieces,mem_filter]
  constructor
  · rintro ⟨message,mem,part,inside,same⟩
    cases part <;> cases same
    rcases message with _ | _ | ⟨_ | parts,options⟩ | _
    · cases inside
    · cases inside
    · cases inside
    · exact ⟨_,mem,mem_map_of_mem inside,rfl⟩
    · cases inside
  · rintro ⟨message,mem,inside,_⟩
    rcases message with _ | ⟨_ | _,_⟩ | ⟨_ | _,_⟩ | _
    · simp [pieces] at inside
    · simp [pieces] at inside
    · simp [pieces] at inside
    · simp [pieces] at inside
    · exact ⟨_,mem,_,by simpa [pieces,assistant_parts,as_parts] using inside,rfl⟩
    · simp [pieces] at inside

theorem mem_approval_requests {request : ToolApprovalRequest} :
    request ∈ approval_requests messages ↔
      Piece.Assistant (.ToolApprovalRequest request) ∈ messages.flatMap tool_pieces := by
  simp only [approval_requests,mem_flatMap,mem_filterMap,tool_pieces,mem_filter]
  constructor
  · rintro ⟨message,mem,part,inside,same⟩
    cases part <;> cases same
    rcases message with _ | _ | ⟨_ | parts,options⟩ | _
    · cases inside
    · cases inside
    · cases inside
    · exact ⟨_,mem,mem_map_of_mem inside,rfl⟩
    · cases inside
  · rintro ⟨message,mem,inside,_⟩
    rcases message with _ | ⟨_ | _,_⟩ | ⟨_ | _,_⟩ | _
    · simp [pieces] at inside
    · simp [pieces] at inside
    · simp [pieces] at inside
    · simp [pieces] at inside
    · exact ⟨_,mem,_,by simpa [pieces,assistant_parts,as_parts] using inside,rfl⟩
    · simp [pieces] at inside

theorem mem_approval_responses {response : ToolApprovalResponse} :
    response ∈ approval_responses messages ↔
      Piece.Tool (.ToolApprovalResponse response) ∈ messages.flatMap tool_pieces := by
  simp only [approval_responses,mem_flatMap,mem_filterMap,tool_pieces,mem_filter]
  constructor
  · rintro ⟨message,mem,part,inside,same⟩
    cases part <;> cases same
    rcases message with _ | _ | _ | ⟨content,options⟩
    · cases inside
    · cases inside
    · cases inside
    · exact ⟨_,mem,mem_map_of_mem inside,rfl⟩
  · rintro ⟨message,mem,inside,_⟩
    rcases message with _ | ⟨_ | _,_⟩ | ⟨_ | _,_⟩ | ⟨_,_⟩
    · simp [pieces] at inside
    · simp [pieces] at inside
    · simp [pieces] at inside
    · simp [pieces] at inside
    · simp [pieces] at inside
    · exact ⟨_,mem,_,by simpa [pieces,tool_content] using inside,rfl⟩

/-! ### Responses and requests -/

theorem keeps_all_approval (rules : List ToolCallPrune) (messages : List Message) (id : ApprovalId)
    (first second : Option ToolCallId) :
    keeps_all rules messages (.Approval id first) = keeps_all rules messages (.Approval id second) := by
  induction rules generalizing messages with
  | nil => rfl
  | cons _ _ ih =>
    simp only [keeps_all,keeps]
    rw [ih]

theorem mem_tool_pieces_prune {piece : Piece}
    (named : piece.ref = some ref) : piece ∈ (prune messages options).flatMap tool_pieces ↔
      piece ∈ messages.flatMap tool_pieces ∧
        keeps_all options.tool_calls (prune_reasoning messages options.reasoning) ref := by
  rw [tool_pieces_prune,mem_filter]
  simp [keeping,named]

theorem responses_requested_prune (options : PruneOptions)
    (requested : ResponsesRequested messages) : ResponsesRequested (prune messages options) := by
  intro response mem
  obtain ⟨before,kept⟩ := (mem_tool_pieces_prune rfl).mp (mem_approval_responses.mp mem)
  obtain ⟨request,present,same⟩ := requested response (mem_approval_responses.mpr before)
  refine ⟨request,mem_approval_requests.mpr ((mem_tool_pieces_prune rfl).mpr ⟨mem_approval_requests.mp present,?_⟩),same⟩
  rw [← same] at kept
  rwa [keeps_all_approval _ _ _ _ none]

def OneCall (messages : List Message) : Prop :=
  ∀ id call other, .Approval id (some call) ∈ refs messages → .Approval id (some other) ∈ refs messages → call = other

/-- When the protected tail of a rule refers to an approval, it refers to the
    tool call of the approval, or the rule spares the tool. -/
def Covers (rule : ToolCallPrune) (messages : List Message) : Prop :=
  ∀ id link call name, .Approval id (some call) ∈ refs messages → .Call call name ∈ refs messages →
    .Approval id link ∈ refs (rule.tail messages) →
    (∃ other, .Call call other ∈ refs (rule.tail messages)) ∨ rule_keeps rule (some name)

theorem refs_tail_subset (mem : ref ∈ refs (rule.tail messages)) : ref ∈ refs messages := by
  obtain ⟨message,inside,named⟩ := List.mem_flatMap.mp mem
  exact List.mem_flatMap.mpr ⟨message,mem_of_mem_drop inside,named⟩

theorem refs_tail_prune_tool_calls (rule other : ToolCallPrune) (messages : List Message) :
    refs (other.tail (prune_tool_calls messages rule)) = (refs (other.tail messages)).filter (rule.keeps messages) := by
  rw [ToolCallPrune.tail,length_prune_tool_calls,prune_tool_calls_eq,← map_drop,refs_retain_refs]
  rfl

theorem mem_call_tool_names {id : ToolCallId} {name : ToolName}
    (found : (call_tool_names messages).lookup id = some name) : .Call id name ∈ refs messages := by
  obtain ⟨ref,mem,same⟩ := List.mem_filterMap.mp (Assoc.mem_of_lookup_collect found)
  cases ref <;> cases same
  exact mem

theorem mem_approval_tool_names {id : ApprovalId} {name : ToolName}
    (found : (approval_tool_names messages).lookup id = some name) :
    ∃ call, .Approval id (some call) ∈ refs messages ∧ .Call call name ∈ refs messages := by
  obtain ⟨⟨_,_⟩,listed,named⟩ := List.mem_filterMap.mp (Assoc.mem_of_lookup_collect found)
  obtain ⟨_,called,same⟩ := Option.map_eq_some_iff.mp named
  cases same
  obtain ⟨ref,mem,linked⟩ := List.mem_filterMap.mp listed
  rcases ref with _ | ⟨_,_ | _⟩ <;> cases linked
  exact ⟨_,mem,mem_call_tool_names called⟩

theorem keeps_call_of_request {id : ApprovalId} {call : ToolCallId}
    {name : ToolName} (one_name : OneName messages) (one_call : OneCall messages) (covers : Covers rule messages)
    (request : .Approval id (some call) ∈ refs messages) (called : .Call call name ∈ refs messages)
    (kept : rule.keeps messages (.Approval id (some call))) : rule.keeps messages (.Call call name) := by
  have spared (spares : rule_keeps rule (some name)) : rule.keeps messages (.Call call name) := by
    simp [keeps,Kept.keeps_call,spares]
  simp only [keeps,Kept.keeps_approval,Bool.or_eq_true,contains_iff_mem] at kept
  rcases kept with inside | outside
  · obtain ⟨ref,mem,same⟩ := List.mem_filterMap.mp inside
    cases ref <;> cases same
    rcases covers id _ call name request called mem with ⟨other,here⟩ | spares
    · have same_name := one_name call name other called (refs_tail_subset here)
      exact keeps_of_tail (same_name ▸ here)
    · exact spared spares
  · cases found : (approval_tool_names messages).lookup id with
    | none =>
      simp only [kept,found,rule_keeps] at outside
      split at outside <;> simp_all
    | some known =>
      obtain ⟨other,linked,named⟩ := mem_approval_tool_names found
      cases one_call id call other request linked
      cases one_name call name known called named
      simp only [kept,found] at outside
      exact spared outside

theorem covers_prune_tool_calls {other : ToolCallPrune} (one_name : OneName messages)
    (covers : Covers other messages) : Covers other (prune_tool_calls messages rule) := by
  intro id link call name request called inside
  rw [refs_prune_tool_calls,mem_filter] at request called
  rw [refs_tail_prune_tool_calls,mem_filter] at inside
  rcases covers id link call name request.1 called.1 inside.1 with ⟨known,here⟩ | spares
  · refine .inl ⟨name,?_⟩
    rw [refs_tail_prune_tool_calls,mem_filter]
    exact ⟨one_name call name known called.1 (refs_tail_subset here) ▸ here,called.2⟩
  · exact .inr spares

theorem keeps_all_call_of_request {rules : List ToolCallPrune} {id : ApprovalId}
    {call : ToolCallId} {name : ToolName} (one_name : OneName messages) (one_call : OneCall messages)
    (covers : ∀ rule ∈ rules, Covers rule messages) (request : .Approval id (some call) ∈ refs messages)
    (called : .Call call name ∈ refs messages) (kept : keeps_all rules messages (.Approval id (some call))) :
    keeps_all rules messages (.Call call name) := by
  induction rules generalizing messages with
  | nil => rfl
  | cons rule _ ih =>
    simp only [keeps_all,Bool.and_eq_true] at kept ⊢
    have first := keeps_call_of_request one_name one_call (covers rule mem_cons_self) request called kept.1
    refine ⟨first,ih ?_ ?_ ?_ ?_ ?_ kept.2⟩
    · intro id name other here there
      rw [refs_prune_tool_calls,mem_filter] at here there
      exact one_name id name other here.1 there.1
    · intro id call other here there
      rw [refs_prune_tool_calls,mem_filter] at here there
      exact one_call id call other here.1 there.1
    · intro other mem
      exact covers_prune_tool_calls one_name (covers other (mem_cons_of_mem rule mem))
    · rw [refs_prune_tool_calls,mem_filter]
      exact ⟨request,kept.1⟩
    · rw [refs_prune_tool_calls,mem_filter]
      exact ⟨called,first⟩

theorem refs_prune_reasoning (messages : List Message) (reasoning : ReasoningPrune) (count : Nat) :
    refs ((prune_reasoning messages reasoning).drop count) = refs (messages.drop count) := by
  refine flatMap_eq_of_forall₂ (forall₂_drop count ?_)
  refine (forall₂_prune_reasoning messages reasoning).imp fun message image related => ?_
  have through (m : Message) : message_refs m = (tool_pieces m).filterMap Piece.ref := by
    rw [message_refs_eq,tool_pieces]
    induction pieces m with
    | nil => rfl
    | cons piece _ ih => cases named : piece.ref <;> simp [named,is_tool_piece,ih]
  rw [through,through,related.2]

theorem refs_prune_reasoning_all (messages : List Message) (reasoning : ReasoningPrune) :
    refs (prune_reasoning messages reasoning) = refs messages := refs_prune_reasoning messages reasoning 0

theorem requests_called_prune (called : RequestsCalled messages)
    (one_name : OneName messages) (one_call : OneCall messages)
    (covers : ∀ rule ∈ options.tool_calls, Covers rule messages) : RequestsCalled (prune messages options) := by
  intro request mem
  obtain ⟨before,kept⟩ := (mem_tool_pieces_prune rfl).mp (mem_approval_requests.mp mem)
  obtain ⟨call,present,same⟩ := called request (mem_approval_requests.mpr before)
  have all_refs := refs_prune_reasoning_all messages options.reasoning
  refine ⟨call,mem_tool_calls.mpr ((mem_tool_pieces_prune rfl).mpr ⟨mem_tool_calls.mp present,?_⟩),same⟩
  rw [same]
  refine @keeps_all_call_of_request _ _ request.approval_id _ _ ?_ ?_ ?_ ?_ ?_ kept
  · rwa [OneName,all_refs]
  · rwa [OneCall,all_refs]
  · intro rule inside
    have tail_refs : refs (rule.tail (prune_reasoning messages options.reasoning)) = refs (rule.tail messages) := by
      rw [ToolCallPrune.tail,length_prune_reasoning,refs_prune_reasoning]
      rfl
    rw [Covers,all_refs,tail_refs]
    exact covers rule inside
  · rw [all_refs]
    exact mem_refs.mpr ⟨_,before,rfl⟩
  · rw [all_refs]
    exact mem_refs.mpr ⟨_,mem_tool_calls.mp present,by rw [← same]; rfl⟩

/-- A pruned history keeps the request of every response, and, where the
    protected tails cover the approvals they refer to, the call of every request. -/
theorem prune_keeps_approvals (messages : List Message) (options : PruneOptions)
    (requested : ResponsesRequested messages) (called : RequestsCalled messages) :
    (ResponsesRequested (prune messages options) ∧
      ∀ id, collect_tool_approvals (prune messages options) ≠ .error (.InvalidToolApproval id no_request_message)) ∧
    (OneName messages → OneCall messages → (∀ rule ∈ options.tool_calls, Covers rule messages) →
      RequestsCalled (prune messages options) ∧
        ∀ id approval_id, collect_tool_approvals (prune messages options) ≠
          .error (.ToolCallNotFoundForApproval id approval_id)) := by
  have still_requested := responses_requested_prune options requested
  refine ⟨⟨still_requested,no_unknown_request still_requested⟩,fun one_name one_call covers => ?_⟩
  have still_called := requests_called_prune called one_name one_call covers
  exact ⟨still_called,no_unknown_call still_called⟩

def request (id : ApprovalId) (call : ToolCallId) : AssistantPart := .ToolApprovalRequest ⟨id,call,none,false,none⟩
def approved (id : ApprovalId) : ToolPart := .ToolApprovalResponse ⟨id,true,none,false⟩

def asked : List Message :=
  [.assistant_parts [call "call-1" "search"],.tool [result "call-1" "search"],
    .assistant_parts [call "call-2" "shop",request "approval-2" "call-2"],.tool [approved "approval-2"]]

def last_two : PruneOptions := ⟨.None,[⟨.BeforeLastMessages 2,none⟩],.Remove⟩

theorem prune_keeps_approvals_asked :
    RequestsCalled (prune asked last_two) ∧ prune asked last_two =
      [.assistant_parts [call "call-2" "shop",request "approval-2" "call-2"],.tool [approved "approval-2"]] := by
  have one_name : OneName asked := by
    intro id name other first second
    simp [refs,asked,message_refs,as_parts,Message.assistant_parts,Message.tool,call,result,request,
      approved,assistant_refs,tool_refs] at first second
    grind
  have one_call : OneCall asked := by
    intro id name other first second
    simp [refs,asked,message_refs,as_parts,Message.assistant_parts,Message.tool,call,result,request,
      approved,assistant_refs,tool_refs] at first second
    grind
  have covers : ∀ rule ∈ last_two.tool_calls, Covers rule asked := by
    intro rule member id link call_id name linked named inside
    cases List.mem_singleton.mp member
    simp [refs,asked,message_refs,as_parts,Message.assistant_parts,Message.tool,call,result,request,
      approved,assistant_refs,tool_refs] at linked
    obtain ⟨rfl,rfl⟩ := linked
    exact .inl ⟨"shop",by decide⟩
  exact ⟨((prune_keeps_approvals asked last_two (by decide) (by decide)).2 one_name one_call covers).1,by decide⟩

/-- The tail holds the response and not the call. -/
def split_request : List Message :=
  [.assistant_parts [call "call-1" "shop"],.assistant_parts [request "approval-1" "call-1"],
    .tool [approved "approval-1"]]

def renamed_result : List Message :=
  [.assistant_parts [call "call-1" "shop",request "approval-1" "call-1",
    .ToolResult ⟨"call-1","search",.text "ok",none⟩],.tool [approved "approval-1"]]

def shared_approval : List Message :=
  [.assistant_parts [call "call-1" "shop",call "call-2" "search",request "approval-1" "call-1",
    request "approval-1" "call-2"],.tool [approved "approval-1"]]

def last_one : PruneOptions := ⟨.None,[⟨.before_last_message,none⟩],.Remove⟩
def without_shop : PruneOptions := ⟨.None,[⟨.All,some ["shop"]⟩],.Remove⟩

/-- A request loses its call when the tail protects the approval alone, when
    the call id has a second name, and when the approval id has a second call. -/
theorem prune_loses_calls :
    (ResponsesRequested split_request ∧ RequestsCalled split_request ∧
      (collect_tool_approvals split_request).isOk ∧ ¬ RequestsCalled (prune split_request last_one) ∧
      collect_tool_approvals (prune split_request last_one) =
        .error (.ToolCallNotFoundForApproval "call-1" "approval-1")) ∧
    (ResponsesRequested renamed_result ∧ RequestsCalled renamed_result ∧
      (collect_tool_approvals renamed_result).isOk ∧ ¬ RequestsCalled (prune renamed_result without_shop) ∧
      collect_tool_approvals (prune renamed_result without_shop) =
        .error (.ToolCallNotFoundForApproval "call-1" "approval-1")) ∧
    (ResponsesRequested shared_approval ∧ RequestsCalled shared_approval ∧
      (collect_tool_approvals shared_approval).isOk ∧ ¬ RequestsCalled (prune shared_approval without_shop)) := by
  decide

end Ferrin.Approval
