import Ferrin.Approval.Collect

/-!
What the collected approvals are. Each response of the trailing tool message
belongs, through its request, to a call of the history; the responses of a call
must agree, and then stand for one entry unless a result settles it.
-/
namespace Ferrin.Approval
open List Option History Assoc CollectedApprovals ToolPart
open History (of)
open List (mem_append mem_singleton)

section
variable (messages : List Message)

def requestOf (response : ToolApprovalResponse) : Option ToolApprovalRequest :=
  (approval_requests messages).reverse.find? (·.approval_id = response.approval_id)

def callOf (response : ToolApprovalResponse) : Option ToolCallPart :=
  (requestOf messages response).bind fun request =>
    (tool_calls messages).reverse.find? (·.tool_call_id = request.tool_call_id)

def resultOf (call : ToolCallPart) : Option ToolResultPart :=
  (tool_results messages).reverse.find? (·.tool_call_id = call.tool_call_id)

def Due (response : ToolApprovalResponse) (call : ToolCallPart) : Prop :=
  ∀ result, resultOf messages call = some result →
    response.approved = false ∧ ToolResultOutput.is_execution_denied result.output

end

def decision (response : ToolApprovalResponse) : Decision := (response.approved,response.provider_executed)

def CollectedApprovals.all (collected : CollectedApprovals) : List ToolApproval := collected.approved ++ collected.denied

theorem push_perm (collected : CollectedApprovals) (approval : ToolApproval) :
    (collected.push approval).all.Perm (approval :: collected.all) := by
  unfold CollectedApprovals.push CollectedApprovals.all
  split_ifs
  · rw [append_assoc]
    exact perm_middle
  · rw [← append_assoc]
    exact perm_append_comm

variable {collected : CollectedApprovals} {approval : ToolApproval} {κ : Type} {messages : List Message}
  {response first second : ToolApprovalResponse} {call : ToolCallPart} {l : List ToolApprovalResponse}
  {state : Collecting} {history : History}

theorem mem_push {other : ToolApproval} :
    other ∈ (collected.push approval).all ↔ other = approval ∨ other ∈ collected.all := by
  rw [(push_perm collected approval).mem_iff,mem_cons]

/-! ### Lookups in the history -/

theorem lookup_collect_eq {α : Type} [DecidableEq κ] (key : α → κ) (l : List α) (k : κ) :
    (Assoc.collect (l.map fun a => (key a,a))).lookup k = l.reverse.find? (key · = k) := by
  induction l using reverseRecOn with
  | nil => rfl
  | append_singleton _ a ih =>
    rw [map_append,map_singleton,collect_append,lookup_put,reverse_append,reverse_singleton,
      singleton_append,find?_cons,ih]
    by_cases same : k = key a
    · simp [same]
    · simp [same,Ne.symm same]

theorem lookup_request (messages : List Message) (response : ToolApprovalResponse) :
    (of messages).requests.lookup response.approval_id = requestOf messages response :=
  lookup_collect_eq _ _ _

theorem lookup_call (messages : List Message) (id : ToolCallId) :
    (of messages).tool_calls.lookup id = (tool_calls messages).reverse.find? (·.tool_call_id = id) :=
  lookup_collect_eq _ _ _

theorem lookup_result (messages : List Message) (call : ToolCallPart) :
    (of messages).results.lookup call.tool_call_id = resultOf messages call :=
  lookup_collect_eq _ _ _

theorem callOf_eq (known : callOf messages response = some call) :
    (tool_calls messages).reverse.find? (·.tool_call_id = call.tool_call_id) = some call := by
  obtain ⟨_,_,found⟩ := Option.bind_eq_some_iff.mp known
  have same := find?_some found
  rw [of_decide_eq_true same]
  exact found

theorem callOf_unique {other : ToolCallPart}
    (known : callOf messages first = some call) (known' : callOf messages second = some other)
    (same : call.tool_call_id = other.tool_call_id) : call = other := by
  have found := callOf_eq known
  rw [same,callOf_eq known'] at found
  exact (some.inj found).symm

theorem callOf_congr
    (same : first.approval_id = second.approval_id) : callOf messages first = callOf messages second := by
  rw [callOf,callOf,requestOf,requestOf,same]

theorem is_settled_iff : is_settled response (resultOf messages call) = false ↔ Due messages response call := by
  unfold is_settled Due
  cases resultOf messages call with
  | none => simp
  | some => simp

def Linked (messages : List Message) (first second : ToolApprovalResponse) : Prop :=
  first.approval_id = second.approval_id ∨ ∃ call, callOf messages first = some call ∧ callOf messages second = some call

/-- A table of the decisions of the responses `l`, by the key of each. -/
def Recorded {κ : Type} [DecidableEq κ] (key : ToolApprovalResponse → Option κ) (l : List ToolApprovalResponse)
    (table : List (κ × Decision)) : Prop :=
  ∀ k d, table.lookup k = some d ↔ ∃ response ∈ l, key response = some k ∧ decision response = d

theorem Recorded.put [DecidableEq κ] {key : ToolApprovalResponse → Option κ}
    {table : List (κ × Decision)} (recorded : Recorded key l table) {k : κ}
    (own : key response = some k) (agrees : ∀ d, table.lookup k = some d → d = decision response) :
    Recorded key (l ++ [response]) (Assoc.put table k (decision response)) := by
  intro other d
  rw [lookup_put]
  split_ifs with same
  · subst same
    constructor
    · rintro ⟨⟩
      exact ⟨response,by simp,own,rfl⟩
    · rintro ⟨earlier,mem,here,rfl⟩
      rcases mem_append.mp mem with before | last
      · rw [agrees _ ((recorded _ _).mpr ⟨earlier,before,here,rfl⟩)]
      · rw [mem_singleton.mp last]
  · rw [recorded]
    constructor
    · rintro ⟨earlier,mem,here⟩
      exact ⟨earlier,by simp [mem],here⟩
    · rintro ⟨earlier,mem,here,decided⟩
      rcases mem_append.mp mem with before | last
      · exact ⟨earlier,before,here,decided⟩
      · rw [mem_singleton.mp last,own] at here
        exact absurd (some.inj here).symm same

def callId (messages : List Message) (response : ToolApprovalResponse) : Option ToolCallId :=
  (callOf messages response).map (·.tool_call_id)

/-- The entries made of the responses `l`. -/
structure Lists (messages : List Message) (l : List ToolApprovalResponse) (collected : CollectedApprovals) : Prop where
  approved : ∀ approval ∈ collected.approved, approval.response.approved = true
  denied : ∀ approval ∈ collected.denied, approval.response.approved = false
  entry : ∀ approval ∈ collected.all, approval.response ∈ l ∧
    requestOf messages approval.response = some approval.request ∧
      callOf messages approval.response = some approval.tool_call ∧
        approval.existing_result = resultOf messages approval.tool_call ∧ Due messages approval.response approval.tool_call
  once : (collected.all.map fun approval => approval.tool_call.tool_call_id).Nodup
  due : ∀ response ∈ l, ∀ call, callOf messages response = some call → Due messages response call →
    ∃ approval ∈ collected.all, approval.tool_call = call

/-- What is kept when the responses `l` have been read. -/
structure Reads (messages : List Message) (l : List ToolApprovalResponse) (state : Collecting) : Prop where
  known : ∀ response ∈ l, ∃ call, callOf messages response = some call
  by_approval : Recorded (fun response => some response.approval_id) l state.approval_decisions
  by_call : Recorded (callId messages) l state.call_decisions
  lists : Lists messages l state.collected

theorem callOf_of_callId {other : ToolApprovalResponse}
    (known : callOf messages response = some call) (same : callId messages other = some call.tool_call_id) :
    callOf messages other = some call := by
  obtain ⟨_,called,ids⟩ := Option.map_eq_some_iff.mp same
  rw [callOf_unique called known ids] at called
  exact called

theorem Reads.agree (reads : Reads messages l state) (mem : first ∈ l) (member' : second ∈ l)
    (linked : Linked messages first second) : decision first = decision second := by
  rcases linked with same | ⟨call,known,known'⟩
  · have recorded := (reads.by_approval _ _).mpr ⟨first,mem,rfl,rfl⟩
    have recorded' := (reads.by_approval _ _).mpr ⟨second,member',rfl,rfl⟩
    rw [same] at recorded
    exact some.inj (recorded.symm.trans recorded')
  · have recorded := (reads.by_call call.tool_call_id _).mpr ⟨first,mem,by rw [callId,known]; rfl,rfl⟩
    have recorded' := (reads.by_call call.tool_call_id _).mpr ⟨second,member',by rw [callId,known']; rfl,rfl⟩
    exact some.inj (recorded.symm.trans recorded')

theorem Lists.skip (lists : Lists messages l collected) (known : callOf messages response = some call)
    (covered : Due messages response call → ∃ approval ∈ collected.all, approval.tool_call = call) :
    Lists messages (l ++ [response]) collected where
  approved := lists.approved
  denied := lists.denied
  entry approval mem := ⟨mem_append_left _ (lists.entry approval mem).1,(lists.entry approval mem).2⟩
  once := lists.once
  due other mem call' known' due' := by
    rcases mem_append.mp mem with before | last
    · exact lists.due other before call' known' due'
    · obtain rfl := mem_singleton.mp last
      obtain rfl := some.inj (known.symm.trans known')
      exact covered due'

theorem Lists.push (lists : Lists messages l collected) {request : ToolApprovalRequest}
    (requested : requestOf messages response = some request)
    (known : callOf messages response = some call) (due : Due messages response call)
    (fresh : ∀ earlier ∈ l, callOf messages earlier ≠ some call) :
    Lists messages (l ++ [response]) (collected.push ⟨call,request,response,resultOf messages call⟩) where
  approved approval mem := by
    unfold CollectedApprovals.push at mem
    split_ifs at mem with yes
    · rcases mem_append.mp mem with before | last
      · exact lists.approved approval before
      · exact mem_singleton.mp last ▸ yes
    · exact lists.approved approval mem
  denied approval mem := by
    unfold CollectedApprovals.push at mem
    split_ifs at mem with yes
    · exact lists.denied approval mem
    · rcases mem_append.mp mem with before | last
      · exact lists.denied approval before
      · exact mem_singleton.mp last ▸ Bool.not_eq_true _ ▸ yes
  entry approval mem := by
    rcases mem_push.mp mem with rfl | before
    · exact ⟨by simp,requested,known,rfl,due⟩
    · exact ⟨mem_append_left _ (lists.entry approval before).1,(lists.entry approval before).2⟩
  once := by
    refine ((push_perm _ _).map _).nodup_iff.mpr (List.nodup_cons.mpr ⟨?_,lists.once⟩)
    intro listed
    obtain ⟨approval,mem,same⟩ := List.mem_map.mp listed
    obtain ⟨inside,_,called,_⟩ := lists.entry approval mem
    exact fresh _ inside (callOf_unique called known same ▸ called)
  due other mem call' known' due' := by
    rcases mem_append.mp mem with before | last
    · obtain ⟨approval,listed,same⟩ := lists.due other before call' known' due'
      exact ⟨approval,mem_push.mpr (.inr listed),same⟩
    · obtain rfl := mem_singleton.mp last
      exact ⟨_,mem_push.mpr (.inl rfl),some.inj (known.symm.trans known')⟩

theorem due_congr (same : decision first = decision second)
    (call : ToolCallPart) : Due messages first call ↔ Due messages second call := by
  have approved : first.approved = second.approved := congrArg Prod.fst same
  rw [Due,Due,approved]

theorem collect_response_reads (reads : Reads messages l state) (response : ToolApprovalResponse) :
    match collect_response (of messages) state response with
    | .ok next => Reads messages (l ++ [response]) next
    | .error _ => callOf messages response = none ∨
        ∃ earlier ∈ l, Linked messages earlier response ∧ decision earlier ≠ decision response := by
  unfold collect_response
  rw [lookup_request]
  cases requested : requestOf messages response with
  | none => exact .inl (by rw [callOf,requested]; rfl)
  | some request =>
    dsimp only
    rw [lookup_call]
    cases called : (tool_calls messages).reverse.find? (·.tool_call_id = request.tool_call_id) with
    | none => exact .inl (by rw [callOf,requested]; exact called)
    | some call =>
      have known : callOf messages response = some call := by rw [callOf,requested]; exact called
      have named : callId messages response = some call.tool_call_id := by rw [callId,known]; rfl
      dsimp only
      rw [lookup_result]
      split_ifs with conflict repeated settled
      · rw [Bool.or_eq_true,Option.any_eq_true,Option.any_eq_true] at conflict
        rcases conflict with ⟨d,found,differs⟩ | ⟨d,found,differs⟩
        · obtain ⟨earlier,mem,same,rfl⟩ := (reads.by_approval _ _).mp found
          exact .inr ⟨earlier,mem,.inl (some.inj same),of_decide_eq_true differs⟩
        · obtain ⟨earlier,mem,other,rfl⟩ := (reads.by_call _ _).mp found
          exact .inr ⟨earlier,mem,.inr ⟨call,callOf_of_callId known other,known⟩,of_decide_eq_true differs⟩
      all_goals
        rw [Bool.or_eq_true,not_or,Option.any_eq_true,Option.any_eq_true] at conflict
        have agrees : ∀ d, state.approval_decisions.lookup response.approval_id = some d → d = decision response :=
          fun d found => by_contra fun differs => conflict.1 ⟨d,found,decide_eq_true differs⟩
        have agrees' : ∀ d, state.call_decisions.lookup call.tool_call_id = some d → d = decision response :=
          fun d found => by_contra fun differs => conflict.2 ⟨d,found,decide_eq_true differs⟩
        have all_known : ∀ other ∈ l ++ [response], ∃ call, callOf messages other = some call := by
          intro other mem
          rcases mem_append.mp mem with before | last
          · exact reads.known other before
          · exact ⟨call,mem_singleton.mp last ▸ known⟩
        have by_approval := reads.by_approval.put rfl agrees
        have by_call := reads.by_call.put named agrees'
      · -- the call was decided before, in the same way
        obtain ⟨earlier,mem,called,same⟩ : ∃ earlier ∈ l, callOf messages earlier = some call ∧
            decision earlier = decision response := by
          rw [Bool.or_eq_true,isSome_iff_exists,isSome_iff_exists] at repeated
          rcases repeated with ⟨d,found⟩ | ⟨d,found⟩
          · obtain ⟨earlier,mem,same,rfl⟩ := (reads.by_approval _ _).mp found
            exact ⟨earlier,mem,(callOf_congr (some.inj same)).trans known,agrees _ found⟩
          · obtain ⟨earlier,mem,other,rfl⟩ := (reads.by_call _ _).mp found
            exact ⟨earlier,mem,callOf_of_callId known other,agrees' _ found⟩
        exact ⟨all_known,by_approval,by_call,reads.lists.skip known fun due =>
          reads.lists.due earlier mem call called ((due_congr same call).mpr due)⟩
      · refine ⟨all_known,by_approval,by_call,reads.lists.skip known fun due => ?_⟩
        exact absurd settled (by rw [is_settled_iff.mpr due]; decide)
      · refine ⟨all_known,by_approval,by_call,reads.lists.push requested known ?_ ?_⟩
        · exact is_settled_iff.mp (Bool.not_eq_true _ ▸ settled)
        · intro earlier mem called
          have recorded := (reads.by_call call.tool_call_id _).mpr ⟨earlier,mem,by rw [callId,called]; rfl,rfl⟩
          simp [recorded] at repeated

theorem collect_responses_read (messages : List Message) (l : List ToolApprovalResponse) :
    match l.foldlM (collect_response (of messages)) ⟨.default,[],[]⟩ with
    | .ok state => Reads messages l state
    | .error _ => (∃ response ∈ l, callOf messages response = none) ∨
        ∃ first ∈ l, ∃ second ∈ l, Linked messages first second ∧ decision first ≠ decision second := by
  induction l using reverseRecOn with
  | nil =>
    refine ⟨by simp,by simp [Recorded],by simp [Recorded],?_⟩
    constructor <;> simp [CollectedApprovals.default,CollectedApprovals.all]
  | append_singleton earlier response ih =>
    rw [foldlM_append]
    cases ran : earlier.foldlM (collect_response (of messages)) ⟨.default,[],[]⟩ with
    | error =>
      rw [ran] at ih
      rcases ih with ⟨other,mem,unknown⟩ | ⟨first,mem,second,member',differ⟩
      · exact .inl ⟨other,mem_append_left _ mem,unknown⟩
      · exact .inr ⟨first,mem_append_left _ mem,second,mem_append_left _ member',differ⟩
    | ok state =>
      rw [ran] at ih
      have step := collect_response_reads ih response
      simp only [foldlM_cons,foldlM_nil,bind,Except.bind]
      cases read : collect_response (of messages) state response with
      | ok =>
        rw [read] at step
        exact step
      | error =>
        rw [read] at step
        rcases step with unknown | ⟨first,mem,differ⟩
        · exact .inl ⟨response,by simp,unknown⟩
        · exact .inr ⟨first,mem_append_left _ mem,response,by simp,differ⟩

/-! ### Repeated responses -/

/-- States that differ at most in the order of their tables. -/
structure Alike (first second : Collecting) : Prop where
  collected : first.collected = second.collected
  by_approval : ∀ id, first.approval_decisions.lookup id = second.approval_decisions.lookup id
  by_call : ∀ id, first.call_decisions.lookup id = second.call_decisions.lookup id

theorem collect_response_alike {first second : Collecting} (alike : Alike first second)
    (response : ToolApprovalResponse) :
    (∃ e, collect_response history first response = .error e ∧ collect_response history second response = .error e) ∨
      ∃ next next', collect_response history first response = .ok next ∧
        collect_response history second response = .ok next' ∧ Alike next next' := by
  unfold collect_response
  cases history.requests.lookup response.approval_id with
  | none => exact .inl ⟨_,rfl,rfl⟩
  | some request =>
    dsimp only
    cases history.tool_calls.lookup request.tool_call_id with
    | none => exact .inl ⟨_,rfl,rfl⟩
    | some =>
      dsimp only
      rw [alike.by_approval,alike.by_call,alike.collected]
      split_ifs
      · exact .inl ⟨_,rfl,rfl⟩
      all_goals
        refine .inr ⟨_,_,rfl,rfl,rfl,fun id => ?_,fun id => ?_⟩
        · rw [lookup_put,lookup_put,alike.by_approval]
        · rw [lookup_put,lookup_put,alike.by_call]

theorem collect_responses_alike (l : List ToolApprovalResponse) : ∀ {first second : Collecting},
    Alike first second → (l.foldlM (collect_response history) first).map Collecting.collected =
      (l.foldlM (collect_response history) second).map Collecting.collected := by
  induction l with
  | nil => intro first second alike; exact congrArg Except.ok alike.collected
  | cons response _ ih =>
    intro first second alike
    rw [foldlM_cons,foldlM_cons]
    rcases collect_response_alike alike response with ⟨e,left,right⟩ | ⟨_,_,left,right,alike'⟩
    · rw [left,right]
    · rw [left,right]
      exact ih alike'

theorem collect_response_again (reads : Reads messages l state) (mem : response ∈ l) :
    ∃ next, collect_response (of messages) state response = .ok next ∧ Alike state next := by
  obtain ⟨call,known⟩ := reads.known response mem
  have by_approval := (reads.by_approval _ _).mpr ⟨response,mem,rfl,rfl⟩
  have by_call := (reads.by_call call.tool_call_id _).mpr ⟨response,mem,by rw [callId,known]; rfl,rfl⟩
  obtain ⟨_,requested,called⟩ := Option.bind_eq_some_iff.mp known
  unfold collect_response
  rw [lookup_request,requested]
  dsimp only
  rw [lookup_call,called]
  dsimp only
  rw [by_approval,by_call,if_neg (by simp [decision]),if_pos (by simp)]
  refine ⟨_,rfl,rfl,fun id => ?_,fun id => ?_⟩
  · rw [lookup_put]
    split_ifs with same
    · rw [same,by_approval]; rfl
    · rfl
  · rw [lookup_put]
    split_ifs with same
    · rw [same,by_call]; rfl
    · rfl

theorem collect_responses_again (messages : List Message) (first rest : List ToolApprovalResponse)
    (mem : response ∈ first) :
    ((first ++ response :: rest).foldlM (collect_response (of messages)) ⟨.default,[],[]⟩).map Collecting.collected =
      ((first ++ rest).foldlM (collect_response (of messages)) ⟨.default,[],[]⟩).map Collecting.collected := by
  rw [foldlM_append,foldlM_append]
  have reads := collect_responses_read messages first
  cases ran : first.foldlM (collect_response (of messages)) ⟨.default,[],[]⟩ with
  | error => rfl
  | ok =>
    rw [ran] at reads
    obtain ⟨_,again,alike⟩ := collect_response_again reads mem
    simp only [foldlM_cons,bind,Except.bind,again]
    exact (collect_responses_alike rest alike).symm

theorem collect_eq (messages : List Message) : collect_tool_approvals messages =
    ((trailing_responses messages).foldlM (collect_response (of messages)) ⟨.default,[],[]⟩).map Collecting.collected := by
  unfold collect_tool_approvals
  cases trailing_responses messages with
  | nil => rfl
  | cons => rfl

theorem trailing_snoc (before : List Message) (content : List ToolPart) (options : Option ProviderOptions) :
    trailing_responses (before ++ [.Tool content options]) = content.filterMap ToolPart.as_tool_approval_response := by
  simp [trailing_responses]

theorem history_insert (before : List Message) (first rest : List ToolPart) (response : ToolApprovalResponse)
    (options : Option ProviderOptions) :
    of (before ++ [.Tool (first ++ .ToolApprovalResponse response :: rest) options]) =
      of (before ++ [.Tool (first ++ rest) options]) := by
  have silent : as_tool_result (.ToolApprovalResponse response) = none := rfl
  simp [of,Approval.tool_calls,approval_requests,tool_results,assistant_parts,tool_content,silent]

/-- The entries of one decision. -/
def CollectedApprovals.listOf (collected : CollectedApprovals) (approved : Bool) : List ToolApproval :=
  if approved then collected.approved else collected.denied

theorem Lists.mem_listOf (lists : Lists messages l collected) (mem : approval ∈ collected.all) :
    approval ∈ collected.listOf approval.response.approved := by
  rcases mem_append.mp mem with yes | no
  · rw [listOf,lists.approved approval yes]
    exact yes
  · rw [listOf,lists.denied approval no]
    exact no

theorem Reads.listed (reads : Reads messages l state) (mem : response ∈ l)
    (known : callOf messages response = some call) :
    (Due messages response call → ∃ approval ∈ state.collected.listOf response.approved, approval.tool_call = call) ∧
      (¬ Due messages response call → ∀ approval ∈ state.collected.all, approval.tool_call ≠ call) := by
  have same : ∀ approval ∈ state.collected.all, approval.tool_call = call → decision approval.response = decision response := by
    rintro approval listed rfl
    obtain ⟨inside,_,called,_⟩ := reads.lists.entry approval listed
    exact reads.agree inside mem (.inr ⟨_,called,known⟩)
  constructor
  · intro due
    obtain ⟨approval,listed,own⟩ := reads.lists.due response mem call known due
    refine ⟨approval,?_,own⟩
    rw [← show approval.response.approved = response.approved from congrArg Prod.fst (same approval listed own)]
    exact reads.lists.mem_listOf listed
  · intro settled approval listed own
    refine settled ((due_congr (same approval listed own) call).mp ?_)
    rw [← own]
    exact (reads.lists.entry approval listed).2.2.2.2

structure Collected (messages : List Message) (collected : CollectedApprovals) : Prop where
  known : ∀ response ∈ trailing_responses messages, ∃ call, callOf messages response = some call
  agree : ∀ first ∈ trailing_responses messages, ∀ second ∈ trailing_responses messages,
    Linked messages first second → decision first = decision second
  lists : Lists messages (trailing_responses messages) collected
  listed : ∀ response ∈ trailing_responses messages, ∀ call, callOf messages response = some call →
    (Due messages response call → ∃ approval ∈ collected.listOf response.approved, approval.tool_call = call) ∧
      (¬ Due messages response call → ∀ approval ∈ collected.all, approval.tool_call ≠ call)

/-- The approvals collected from a history. The responses of its trailing tool
    message are refused when the call of one is unknown or two that are linked
    differ; otherwise each call is listed at most once, by its decision, when an
    entry is due. Repeating a response changes nothing. -/
theorem collect_tool_approvals_decided (messages : List Message) :
    (match collect_tool_approvals messages with
      | .error _ => (∃ response ∈ trailing_responses messages, callOf messages response = none) ∨
          ∃ first ∈ trailing_responses messages, ∃ second ∈ trailing_responses messages,
            Linked messages first second ∧ decision first ≠ decision second
      | .ok collected => Collected messages collected) ∧
    ∀ before first middle rest response options,
      collect_tool_approvals
          (before ++ [.Tool (first ++ .ToolApprovalResponse response :: middle ++ .ToolApprovalResponse response :: rest) options]) =
        collect_tool_approvals (before ++ [.Tool (first ++ .ToolApprovalResponse response :: middle ++ rest) options]) := by
  constructor
  · rw [collect_eq]
    have read := collect_responses_read messages (trailing_responses messages)
    cases ran : (trailing_responses messages).foldlM (collect_response (of messages)) ⟨.default,[],[]⟩ with
    | error e =>
      rw [ran] at read
      exact read
    | ok state =>
      rw [ran] at read
      exact ⟨read.known,fun first member second member' linked => read.agree member member' linked,read.lists,
        fun response member call known => read.listed member known⟩
  · intro before first middle rest response options
    have member : response ∈ (first ++ .ToolApprovalResponse response :: middle).filterMap as_tool_approval_response :=
      List.mem_filterMap.mpr ⟨.ToolApprovalResponse response,mem_append_right _ mem_cons_self,rfl⟩
    have split (more : List ToolPart) :
        (first ++ .ToolApprovalResponse response :: middle ++ more).filterMap as_tool_approval_response =
          (first ++ .ToolApprovalResponse response :: middle).filterMap as_tool_approval_response ++
            more.filterMap as_tool_approval_response := filterMap_append
    rw [collect_eq,collect_eq,history_insert,trailing_snoc,trailing_snoc,split,split]
    exact collect_responses_again _ _ _ member

end Ferrin.Approval
