import Ferrin.Message.Prune
import Mathlib.Data.List.Flatten
import Mathlib.Data.List.Forall2

/-!
What pruning leaves of the links between calls, results, approval requests and
approval responses. A rule is a filter on references, the same for every
message: what the tail refers to is kept in the tail because it is kept
everywhere.
-/
namespace Ferrin.Prune
open List Function

inductive Piece where
  | Text (text : String)
  | User (part : UserPart)
  | Assistant (part : AssistantPart)
  | Tool (part : ToolPart)

def Piece.ref : Piece → Option ToolRef
  | .Assistant part => assistant_refs part
  | .Tool part => tool_refs part
  | _ => none

def pieces : Message → List Piece
  | .System content _ => [.Text content]
  | .User (.Text text) _ => [.Text text]
  | .User (.Parts parts) _ => parts.map .User
  | .Assistant (.Text text) _ => [.Text text]
  | .Assistant (.Parts parts) _ => parts.map .Assistant
  | .Tool content _ => content.map .Tool

def is_tool_piece (piece : Piece) : Bool := piece.ref.isSome

/-- Calls, results, approval requests and approval responses. -/
def tool_pieces (message : Message) : List Piece := (pieces message).filter is_tool_piece

def keeping (keep : ToolRef → Bool) (piece : Piece) : Bool := piece.ref.all keep

def retain_refs (keep : ToolRef → Bool) : Message → Message :=
  retain_parts (fun part => keeping keep (.Assistant part)) fun part => keeping keep (.Tool part)

theorem message_refs_eq (message : Message) : message_refs message = (pieces message).filterMap Piece.ref := by
  rcases message with ⟨_,_⟩ | ⟨_ | _,_⟩ | ⟨_ | _,_⟩ | ⟨_,_⟩
  · rfl
  · rfl
  · simp [message_refs,pieces,filterMap_map,comp_def,Piece.ref]
  · rfl
  · simp [message_refs,pieces,AssistantContent.as_parts,filterMap_map,comp_def,Piece.ref]
  · simp [message_refs,pieces,filterMap_map,comp_def,Piece.ref]

variable (keep : ToolRef → Bool)

theorem pieces_retain_refs (message : Message) :
    pieces (retain_refs keep message) = (pieces message).filter (keeping keep) := by
  rcases message with ⟨_,_⟩ | ⟨_ | _,_⟩ | ⟨_ | _,_⟩ | ⟨_,_⟩
  · rfl
  · rfl
  · simp [retain_refs,retain_parts,pieces,filter_map,comp_def,keeping,Piece.ref]
  · rfl
  · simp [retain_refs,retain_parts,pieces,filter_map,comp_def]
  · simp [retain_refs,retain_parts,pieces,filter_map,comp_def]

theorem filterMap_keeping (l : List Piece) :
    (l.filter (keeping keep)).filterMap Piece.ref = (l.filterMap Piece.ref).filter keep := by
  induction l with
  | nil => rfl
  | cons piece _ ih =>
    cases named : piece.ref with
    | none => simp [keeping,named,← ih]
    | some ref =>
      by_cases kept : keep ref
      · simp [keeping,named,kept,← ih]
      · simp [keeping,named,kept,← ih]

theorem message_refs_retain_refs (message : Message) :
    message_refs (retain_refs keep message) = (message_refs message).filter keep := by
  rw [message_refs_eq,pieces_retain_refs,filterMap_keeping,← message_refs_eq]

theorem refs_retain_refs (messages : List Message) :
    refs (messages.map (retain_refs keep)) = (refs messages).filter keep := by
  induction messages with
  | nil => rfl
  | cons _ _ ih =>
    simp only [refs,map_cons,flatMap_cons,filter_append] at ih ⊢
    rw [ih,message_refs_retain_refs]

variable {message : Message} {rule : ToolCallPrune} {messages : List Message} {ref : ToolRef} {index : Nat}
  {α β γ : Type} {f : α → List γ} {g : β → List γ} {l : List α} {m : List β} {piece : Piece} {id : ToolCallId}
  {options : PruneOptions}

theorem retain_refs_of_all {keep : ToolRef → Bool}
    (all : ∀ ref ∈ message_refs message, keep ref) : retain_refs keep message = message := by
  rcases message with ⟨content,_⟩ | ⟨content,_⟩ | ⟨_ | parts,_⟩ | ⟨content,_⟩
  · rfl
  · rfl
  · rfl
  · have every : ∀ part ∈ parts, keeping keep (.Assistant part) := by
      intro part mem
      simp only [keeping,Piece.ref,Option.all_eq_true]
      intro ref named
      exact all ref (List.mem_filterMap.mpr ⟨part,mem,named⟩)
    simp only [retain_refs,retain_parts,List.filter_eq_self.mpr every]
  · have every : ∀ part ∈ content, keeping keep (.Tool part) := by
      intro part mem
      simp only [keeping,Piece.ref,Option.all_eq_true]
      intro ref named
      exact all ref (List.mem_filterMap.mpr ⟨part,mem,named⟩)
    simp only [retain_refs,retain_parts,List.filter_eq_self.mpr every]

/-! ### A rule as a filter -/

def ToolCallPrune.keeps (rule : ToolCallPrune) (messages : List Message) : ToolRef → Bool
  | .Call id name => (rule.kept messages).keeps_call id name rule
  | .Approval id _ => (rule.kept messages).keeps_approval id rule

theorem keeps_assistant_eq (rule : ToolCallPrune) (messages : List Message) (part : AssistantPart) :
    (rule.kept messages).keeps_assistant rule part = keeping (rule.keeps messages) (.Assistant part) := by
  cases part <;> rfl

theorem keeps_tool_eq (rule : ToolCallPrune) (messages : List Message) (part : ToolPart) :
    (rule.kept messages).keeps_tool rule part = keeping (rule.keeps messages) (.Tool part) := by
  cases part <;> rfl

theorem keeps_of_tail (named : ref ∈ refs (rule.tail messages)) : rule.keeps messages ref := by
  cases ref with
  | Call id name =>
    have listed : id ∈ (rule.kept messages).tool_call_ids :=
      List.mem_map.mpr ⟨(id,name),List.mem_filterMap.mpr ⟨_,named,rfl⟩,rfl⟩
    simp [ToolCallPrune.keeps,Kept.keeps_call,listed]
  | Approval id =>
    have listed : id ∈ (rule.kept messages).approval_ids := List.mem_filterMap.mpr ⟨_,named,rfl⟩
    simp [ToolCallPrune.keeps,Kept.keeps_approval,listed]

theorem prune_tool_calls_eq (messages : List Message) (rule : ToolCallPrune) :
    prune_tool_calls messages rule = messages.map (retain_refs (rule.keeps messages)) := by
  have same : retain_parts ((rule.kept messages).keeps_assistant rule) ((rule.kept messages).keeps_tool rule) =
      retain_refs (rule.keeps messages) := by
    rw [retain_refs,funext (keeps_assistant_eq rule messages),funext (keeps_tool_eq rule messages)]
  have spared : (messages.drop (rule.kept messages).protected_from).map (retain_refs (rule.keeps messages)) =
      messages.drop (rule.kept messages).protected_from := by
    refine (map_congr_left fun message mem => ?_).trans (map_id _)
    refine retain_refs_of_all fun ref named => keeps_of_tail ?_
    exact List.mem_flatMap.mpr ⟨message,mem,named⟩
  rw [prune_tool_calls,same,← spared,← map_append,take_append_drop]

theorem refs_prune_tool_calls (messages : List Message) (rule : ToolCallPrune) :
    refs (prune_tool_calls messages rule) = (refs messages).filter (rule.keeps messages) := by
  rw [prune_tool_calls_eq,refs_retain_refs]

theorem length_prune_tool_calls (messages : List Message) (rule : ToolCallPrune) :
    (prune_tool_calls messages rule).length = messages.length := by
  rw [prune_tool_calls_eq,length_map]

theorem getElem?_prune_tool_calls (inside : rule.protected_from messages.length ≤ index) :
    (prune_tool_calls messages rule)[index]? = messages[index]? := by
  rw [prune_tool_calls_eq,getElem?_map]
  cases found : messages[index]? with
  | none => rfl
  | some message =>
    refine congrArg some (retain_refs_of_all fun ref named => keeps_of_tail ?_)
    refine List.mem_flatMap.mpr ⟨message,?_,named⟩
    refine mem_of_getElem? (i := index - rule.protected_from messages.length) ?_
    rw [ToolCallPrune.tail,getElem?_drop,Nat.add_sub_cancel' inside,found]

def prune_rules (messages : List Message) (rules : List ToolCallPrune) : List Message :=
  rules.foldl prune_tool_calls messages

def keeps_all : List ToolCallPrune → List Message → ToolRef → Bool
  | [],_,_ => true
  | rule :: rules,messages,ref => rule.keeps messages ref && keeps_all rules (prune_tool_calls messages rule) ref

theorem retain_refs_retain_refs (first second : ToolRef → Bool) (message : Message) :
    retain_refs second (retain_refs first message) = retain_refs (fun ref => first ref && second ref) message := by
  have both (piece : Piece) : keeping (fun ref => first ref && second ref) piece =
      (keeping first piece && keeping second piece) := by
    cases named : piece.ref <;> simp [keeping,named]
  rcases message with ⟨_,_⟩ | ⟨_,_⟩ | ⟨_ | _,_⟩ | ⟨_,_⟩
  · rfl
  · rfl
  · rfl
  · simp [retain_refs,retain_parts,filter_filter,both,Bool.and_comm]
  · simp [retain_refs,retain_parts,filter_filter,both,Bool.and_comm]

theorem prune_rules_eq (rules : List ToolCallPrune) (messages : List Message) :
    prune_rules messages rules = messages.map (retain_refs (keeps_all rules messages)) := by
  induction rules generalizing messages with
  | nil =>
    refine ((map_congr_left fun message _ => ?_).trans (map_id _)).symm
    exact retain_refs_of_all fun _ _ => rfl
  | cons rule rules ih =>
    show prune_rules (prune_tool_calls messages rule) rules = _
    rw [ih,prune_tool_calls_eq,map_map]
    refine map_congr_left fun message _ => ?_
    simp only [comp_apply,retain_refs_retain_refs,keeps_all,prune_tool_calls_eq]

theorem getElem?_prune_rules {rules : List ToolCallPrune}
    (inside : ∀ rule ∈ rules, rule.protected_from messages.length ≤ index) :
    (prune_rules messages rules)[index]? = messages[index]? := by
  induction rules generalizing messages with
  | nil => rfl
  | cons rule rules ih =>
    have later : ∀ other ∈ rules, other.protected_from (prune_tool_calls messages rule).length ≤ index := by
      intro other mem
      rw [length_prune_tool_calls]
      exact inside other (mem_cons_of_mem rule mem)
    rw [← getElem?_prune_tool_calls (inside rule mem_cons_self)]
    exact ih later

theorem pieces_drop_reasoning (message : Message) :
    (pieces (drop_reasoning message)).Sublist (pieces message) ∧
      tool_pieces (drop_reasoning message) = tool_pieces message := by
  rcases message with ⟨_,_⟩ | ⟨_ | _,_⟩ | ⟨_ | _,_⟩ | ⟨_,_⟩
  · exact ⟨.refl _,rfl⟩
  · exact ⟨.refl _,rfl⟩
  · exact ⟨.refl _,rfl⟩
  · exact ⟨.refl _,rfl⟩
  · refine ⟨List.filter_sublist.map _,?_⟩
    simp only [drop_reasoning,retain_parts,tool_pieces,pieces,filter_map,filter_filter]
    refine congrArg _ (filter_congr fun part _ => ?_)
    cases part <;> rfl
  · simp [drop_reasoning,retain_parts,tool_pieces]

theorem length_prune_reasoning (messages : List Message) (reasoning : ReasoningPrune) :
    (prune_reasoning messages reasoning).length = messages.length := by
  simp [prune_reasoning]

theorem getElem?_prune_reasoning (reasoning : ReasoningPrune) (found : messages[index]? = some message) :
    ∃ image, (prune_reasoning messages reasoning)[index]? = some image ∧
      (pieces image).Sublist (pieces message) ∧ tool_pieces image = tool_pieces message := by
  simp only [prune_reasoning,getElem?_mapIdx,found,Option.map_some]
  refine ⟨_,rfl,?_⟩
  split_ifs
  · exact ⟨.refl _,rfl⟩
  · exact pieces_drop_reasoning message

theorem forall₂_prune_reasoning (messages : List Message) (reasoning : ReasoningPrune) :
    List.Forall₂ (fun message image => (pieces image).Sublist (pieces message) ∧
      tool_pieces image = tool_pieces message) messages (prune_reasoning messages reasoning) := by
  refine List.forall₂_iff_get.mpr ⟨(length_prune_reasoning messages reasoning).symm,fun index before after => ?_⟩
  obtain ⟨_,found,related⟩ := getElem?_prune_reasoning reasoning (getElem?_eq_getElem before)
  rw [getElem?_eq_getElem after] at found
  cases found
  exact related

theorem tool_pieces_of_empty (nothing : message.is_empty) : tool_pieces message = [] := by
  rcases message with ⟨_,_⟩ | ⟨_ | _,_⟩ | ⟨_ | _,_⟩ | ⟨_,_⟩
  · rfl
  · rfl
  · rw [List.isEmpty_iff.mp nothing]
    rfl
  · rfl
  · rw [List.isEmpty_iff.mp nothing]
    rfl
  · rw [List.isEmpty_iff.mp nothing]
    rfl

theorem tool_pieces_remove_empty (empty_messages : EmptyMessages) (messages : List Message) :
    (remove_empty empty_messages messages).flatMap tool_pieces = messages.flatMap tool_pieces := by
  unfold remove_empty
  split_ifs
  · induction messages with
    | nil => rfl
    | cons message _ ih =>
      by_cases nothing : message.is_empty
      · simp [nothing,tool_pieces_of_empty nothing,ih]
      · simp [nothing,ih]
  · rfl

theorem remove_empty_sublist (empty_messages : EmptyMessages) (messages : List Message) :
    (remove_empty empty_messages messages).Sublist messages := by
  unfold remove_empty
  split_ifs
  · exact filter_sublist
  · exact .refl _

theorem tool_pieces_retain_refs (message : Message) :
    tool_pieces (retain_refs keep message) = (tool_pieces message).filter (keeping keep) := by
  simp only [tool_pieces,pieces_retain_refs,filter_filter,Bool.and_comm]

theorem flatMap_eq_of_forall₂ (each : List.Forall₂ (fun a b => g b = f a) l m) : m.flatMap g = l.flatMap f := by
  induction each with
  | nil => rfl
  | cons first _ ih => rw [flatMap_cons,flatMap_cons,first,ih]

theorem tool_pieces_prune (messages : List Message) (options : PruneOptions) :
    (prune messages options).flatMap tool_pieces = (messages.flatMap tool_pieces).filter
      (keeping (keeps_all options.tool_calls (prune_reasoning messages options.reasoning))) := by
  have reasoned := flatMap_eq_of_forall₂ ((forall₂_prune_reasoning messages options.reasoning).imp fun _ _ related =>
    related.2)
  rw [prune,tool_pieces_remove_empty,← prune_rules,prune_rules_eq,← reasoned,List.filter_flatMap,flatMap_map]
  simp only [tool_pieces_retain_refs]

def Piece.called : Piece → Option ToolCallId
  | .Assistant (.ToolCall call) => some call.tool_call_id
  | _ => none

def Piece.answered : Piece → Option ToolCallId
  | .Assistant (.ToolResult result) | .Tool (.ToolResult result) => some result.tool_call_id
  | _ => none

def call_ids (messages : List Message) : List ToolCallId := (messages.flatMap pieces).filterMap Piece.called
def result_ids (messages : List Message) : List ToolCallId := (messages.flatMap pieces).filterMap Piece.answered

def OneName (messages : List Message) : Prop :=
  ∀ id name other, .Call id name ∈ refs messages → .Call id other ∈ refs messages → name = other

structure Paired (messages : List Message) : Prop where
  result_has_call : ∀ id ∈ result_ids messages, id ∈ call_ids messages
  call_has_result : ∀ id ∈ call_ids messages, id ∈ result_ids messages

theorem mem_refs : ref ∈ refs messages ↔ ∃ piece ∈ messages.flatMap tool_pieces, piece.ref = some ref := by
  simp only [refs,message_refs_eq,mem_flatMap,mem_filterMap,tool_pieces,mem_filter]
  constructor
  · rintro ⟨message,mem,piece,inside,named⟩
    exact ⟨piece,⟨message,mem,inside,by simp [is_tool_piece,named]⟩,named⟩
  · rintro ⟨piece,⟨message,mem,inside,_⟩,named⟩
    exact ⟨message,mem,piece,inside,named⟩

theorem mem_filterMap_pieces {read : Piece → Option α} {a : α}
    (tools_only : ∀ piece, (read piece).isSome → is_tool_piece piece) :
    a ∈ (messages.flatMap pieces).filterMap read ↔ ∃ piece ∈ messages.flatMap tool_pieces, read piece = some a := by
  simp only [mem_filterMap,mem_flatMap,tool_pieces,mem_filter]
  constructor
  · rintro ⟨piece,⟨message,mem,inside⟩,same⟩
    exact ⟨piece,⟨message,mem,inside,tools_only piece (by simp [same])⟩,same⟩
  · rintro ⟨piece,⟨message,mem,inside,_⟩,same⟩
    exact ⟨piece,⟨message,mem,inside⟩,same⟩

theorem ref_of_called (same : piece.called = some id) : ∃ name, piece.ref = some (.Call id name) := by
  rcases piece with _ | _ | part | _
  · cases same
  · cases same
  · cases part <;> cases same
    exact ⟨_,rfl⟩
  · cases same

theorem ref_of_answered (same : piece.answered = some id) : ∃ name, piece.ref = some (.Call id name) := by
  rcases piece with _ | _ | part | part
  · cases same
  · cases same
  · cases part <;> cases same
    exact ⟨_,rfl⟩
  · cases part <;> cases same
    exact ⟨_,rfl⟩

theorem mem_call_ids : id ∈ call_ids messages ↔ ∃ piece ∈ messages.flatMap tool_pieces, piece.called = some id := by
  refine mem_filterMap_pieces fun piece some_id => ?_
  obtain ⟨_,same⟩ := Option.isSome_iff_exists.mp some_id
  obtain ⟨_,named⟩ := ref_of_called same
  simp [is_tool_piece,named]

theorem mem_result_ids :
    id ∈ result_ids messages ↔ ∃ piece ∈ messages.flatMap tool_pieces, piece.answered = some id := by
  refine mem_filterMap_pieces fun piece some_id => ?_
  obtain ⟨_,same⟩ := Option.isSome_iff_exists.mp some_id
  obtain ⟨_,named⟩ := ref_of_answered same
  simp [is_tool_piece,named]

theorem survives_with {name other : ToolName}
    {kept : Piece} (one_name : OneName messages) (survives : kept ∈ (prune messages options).flatMap tool_pieces)
    (on_call : kept.ref = some (.Call id name)) (mem : piece ∈ messages.flatMap tool_pieces)
    (same_call : piece.ref = some (.Call id other)) : piece ∈ (prune messages options).flatMap tool_pieces := by
  rw [tool_pieces_prune,mem_filter] at survives ⊢
  have same_name : name = other :=
    one_name id name other (mem_refs.mpr ⟨kept,survives.1,on_call⟩) (mem_refs.mpr ⟨piece,mem,same_call⟩)
  refine ⟨mem,?_⟩
  have kept_ref := survives.2
  rw [keeping,on_call,same_name] at kept_ref
  rw [keeping,same_call]
  exact kept_ref

theorem paired_prune (options : PruneOptions) (one_name : OneName messages)
    (paired : Paired messages) : Paired (prune messages options) := by
  have before {piece : Piece} (survives : piece ∈ (prune messages options).flatMap tool_pieces) :
      piece ∈ messages.flatMap tool_pieces := by
    rw [tool_pieces_prune] at survives
    exact mem_of_mem_filter survives
  constructor
  · intro id answered
    obtain ⟨result,survives,same⟩ := mem_result_ids.mp answered
    obtain ⟨call,mem,called⟩ := mem_call_ids.mp
      (paired.result_has_call id (mem_result_ids.mpr ⟨result,before survives,same⟩))
    obtain ⟨name,on_call⟩ := ref_of_answered same
    obtain ⟨other,same_call⟩ := ref_of_called called
    exact mem_call_ids.mpr ⟨call,survives_with one_name survives on_call mem same_call,called⟩
  · intro id called
    obtain ⟨call,survives,same⟩ := mem_call_ids.mp called
    obtain ⟨result,mem,answered⟩ := mem_result_ids.mp
      (paired.call_has_result id (mem_call_ids.mpr ⟨call,before survives,same⟩))
    obtain ⟨_,on_call⟩ := ref_of_called same
    obtain ⟨_,same_call⟩ := ref_of_answered answered
    exact mem_result_ids.mpr ⟨result,survives_with one_name survives on_call mem same_call,answered⟩

/-- The messages before the empty ones are removed. -/
def images (messages : List Message) (options : PruneOptions) : List Message :=
  prune_rules (prune_reasoning messages options.reasoning) options.tool_calls

theorem sublist_images (messages : List Message) (options : PruneOptions) :
    List.Forall₂ (fun message image => (pieces image).Sublist (pieces message)) messages (images messages options) := by
  rw [images,prune_rules_eq,forall₂_map_right_iff]
  refine (forall₂_prune_reasoning messages options.reasoning).imp fun message image related => ?_
  rw [pieces_retain_refs]
  exact List.filter_sublist.trans related.1

theorem flatMap_sublist_of_forall₂
    (each : List.Forall₂ (fun a b => (g b).Sublist (f a)) l m) : (m.flatMap g).Sublist (l.flatMap f) := by
  induction each with
  | nil => exact .refl _
  | cons first _ ih =>
    rw [flatMap_cons,flatMap_cons]
    exact first.append ih

theorem pieces_prune_sublist (messages : List Message) (options : PruneOptions) :
    ((prune messages options).flatMap pieces).Sublist (messages.flatMap pieces) :=
  ((remove_empty_sublist options.empty_messages (images messages options)).flatMap pieces).trans
    (flatMap_sublist_of_forall₂ (sublist_images messages options))

theorem tool_pieces_of_tail {image : Message}
    (before : messages[index]? = some message) (after : (images messages options)[index]? = some image)
    (inside : ∀ rule ∈ options.tool_calls, rule.protected_from messages.length ≤ index) :
    tool_pieces image = tool_pieces message := by
  obtain ⟨_,found,_,same⟩ := getElem?_prune_reasoning options.reasoning before
  rw [← length_prune_reasoning messages options.reasoning] at inside
  rw [images,getElem?_prune_rules inside,found] at after
  cases after
  exact same

theorem stays_of_tool_pieces {empty_messages : EmptyMessages}
    (mem : message ∈ messages) (holds : tool_pieces message ≠ []) : message ∈ remove_empty empty_messages messages := by
  unfold remove_empty
  split_ifs
  · refine List.mem_filter.mpr ⟨mem,?_⟩
    by_contra nothing
    exact holds (tool_pieces_of_empty (by simpa using nothing))
  · exact mem

/-- Pruning keeps calls and results paired, keeps the tool pieces of what lies
    in the protected tail of every rule, and leaves a subsequence of the pieces. -/
theorem prune_keeps_pairs (messages : List Message) (options : PruneOptions) (one_name : OneName messages)
    (paired : Paired messages) :
    Paired (prune messages options) ∧
      ((prune messages options).flatMap pieces).Sublist (messages.flatMap pieces) ∧
      prune messages options = remove_empty options.empty_messages (images messages options) ∧
      List.Forall₂ (fun message image => (pieces image).Sublist (pieces message)) messages (images messages options) ∧
      ∀ index message image, messages[index]? = some message → (images messages options)[index]? = some image →
        (∀ rule ∈ options.tool_calls, rule.protected_from messages.length ≤ index) →
        tool_pieces image = tool_pieces message ∧
          (tool_pieces message ≠ [] → image ∈ prune messages options) := by
  refine ⟨paired_prune options one_name paired,pieces_prune_sublist messages options,rfl,
    sublist_images messages options,fun index message image before after inside => ?_⟩
  have same := tool_pieces_of_tail before after inside
  refine ⟨same,fun holds => stays_of_tool_pieces (mem_of_getElem? after) ?_⟩
  rwa [same]

def call (id : ToolCallId) (name : ToolName) : AssistantPart := .ToolCall ⟨id,name,.null,false,none⟩
def result (id : ToolCallId) (name : ToolName) : ToolPart := .ToolResult ⟨id,name,.text "ok",none⟩

def searched : List Message :=
  [.User (.Text "q") none,.assistant_parts [call "call-1" "search"],.tool [result "call-1" "search"],
    .assistant_parts [call "call-2" "fetch"],.tool [result "call-2" "fetch"]]

def recent : PruneOptions := ⟨.All,[⟨.before_last_message,none⟩,⟨.BeforeLastMessages 2,some ["search"]⟩],.Remove⟩

theorem prune_keeps_pairs_searched :
    Paired (prune searched recent) ∧ prune searched recent =
      [.User (.Text "q") none,.assistant_parts [call "call-2" "fetch"],.tool [result "call-2" "fetch"]] := by
  have one_name : OneName searched := by
    intro id name other first second
    simp [refs,searched,message_refs,AssistantContent.as_parts,Message.assistant_parts,Message.tool,call,result,
      assistant_refs,tool_refs] at first second
    grind
  have paired : Paired searched := ⟨by decide,by decide⟩
  exact ⟨(prune_keeps_pairs searched recent one_name paired).1,by decide⟩

end Ferrin.Prune
