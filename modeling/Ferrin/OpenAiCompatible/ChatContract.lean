import Ferrin.OpenAiCompatible.ChatStream

/-!
When the stream of a chat completion obeys the contract. What a stream shows of
its chunks is an outline of segments; text and reasoning are started anew
whenever the segment before them closed them, always under the same id.
-/
namespace Ferrin.OpenAiCompatible
open Ferrin.Stream Ferrin.Brackets Ferrin.Assoc List ChatStreamState ToolCallTracker StreamPart

/-! ### Segments -/

/-- A piece of output of one kind. -/
inductive Segment where
  | Text
  | Reasoning
  | Tools
  deriving DecidableEq

/-- Which of the two fixed parts is open. -/
structure Mode where
  text : Bool
  reasoning : Bool

def Mode.next (m : Mode) : Segment → Mode
  | .Text => ⟨true,false⟩
  | .Reasoning => ⟨false,true⟩
  | .Tools => ⟨m.text,false⟩

def Mode.begins (m : Mode) : Segment → Option PartId
  | .Text => if m.text then none else some TEXT_PART_ID
  | .Reasoning => if m.reasoning then none else some REASONING_PART_ID
  | .Tools => none

def Mode.after (m : Mode) (segments : List Segment) : Mode := segments.foldl Mode.next m

def begun : Mode → List Segment → List PartId
  | _, [] => []
  | m, segment :: rest => (m.begins segment).toList ++ begun (m.next segment) rest

theorem begun_append (before after : List Segment) : ∀ m : Mode,
    begun m (before ++ after) = begun m before ++ begun (m.after before) after := by
  induction before with
  | nil => intro m; rfl
  | cons _ _ ih =>
    intro m
    simp only [cons_append,begun,ih,append_assoc]
    rfl

def Resumes (segments : List Segment) : Prop :=
  [.Text,.Reasoning,.Text].Sublist segments ∨ [.Reasoning,.Text,.Reasoning].Sublist segments ∨
    [.Reasoning,.Tools,.Reasoning].Sublist segments

instance (segments : List Segment) : Decidable (Resumes segments) := by unfold Resumes; infer_instance

theorem text_begun (segments : List Segment) : ∀ r : Bool,
    (TEXT_PART_ID ∈ begun ⟨false,r⟩ segments ↔ [.Text].Sublist segments) ∧
      (TEXT_PART_ID ∈ begun ⟨true,r⟩ segments ↔ [.Reasoning,.Text].Sublist segments) := by
  have apart : TEXT_PART_ID ≠ REASONING_PART_ID := by decide
  induction segments with
  | nil => intro r; simp [begun]
  | cons segment _ ih =>
    intro r
    cases segment <;> cases r <;>
      simp [begun,Mode.begins,Mode.next,cons_sublist_cons',apart,ih]

theorem reasoning_begun (segments : List Segment) : ∀ t : Bool,
    (REASONING_PART_ID ∈ begun ⟨t,false⟩ segments ↔ [.Reasoning].Sublist segments) ∧
      (REASONING_PART_ID ∈ begun ⟨t,true⟩ segments ↔
        [.Text,.Reasoning].Sublist segments ∨ [.Tools,.Reasoning].Sublist segments) := by
  have apart : REASONING_PART_ID ≠ TEXT_PART_ID := by decide
  induction segments with
  | nil => intro t; simp [begun]
  | cons segment _ ih =>
    intro t
    cases segment <;> cases t <;>
      simp [begun,Mode.begins,Mode.next,cons_sublist_cons',apart,ih]
    all_goals grind

/-- Parts that were open at first and are resumed later. -/
def ResumesFrom (m : Mode) (segments : List Segment) : Prop :=
  (if m.text then [.Reasoning,.Text,.Reasoning,.Text].Sublist segments
   else [.Text,.Reasoning,.Text].Sublist segments) ∨
  if m.reasoning then
    [.Text,.Reasoning,.Text,.Reasoning].Sublist segments ∨ [.Text,.Reasoning,.Tools,.Reasoning].Sublist segments ∨
      [.Tools,.Reasoning,.Text,.Reasoning].Sublist segments ∨ [.Tools,.Reasoning,.Tools,.Reasoning].Sublist segments
  else [.Reasoning,.Text,.Reasoning].Sublist segments ∨ [.Reasoning,.Tools,.Reasoning].Sublist segments

theorem begun_nodup_iff (segments : List Segment) : ∀ m : Mode,
    (begun m segments).Nodup ↔ ¬ ResumesFrom m segments := by
  have apart : TEXT_PART_ID ≠ REASONING_PART_ID := by decide
  induction segments with
  | nil => rintro ⟨text,reasoning⟩; cases text <;> cases reasoning <;> simp [begun,ResumesFrom]
  | cons segment rest ih =>
    rintro ⟨text,reasoning⟩
    have tail : ∀ (a : Segment) (l : List Segment), (a :: l).Sublist rest → l.Sublist rest :=
      fun a l => sublist_of_cons_sublist
    have init : ∀ a b c : Segment, [a,b,c].Sublist rest → [a,b].Sublist rest :=
      fun a b c => (prefix_append [a,b] [c]).sublist.trans
    have front : ∀ a b c d : Segment, [a,b,c,d].Sublist rest → [a,b].Sublist rest :=
      fun a b c d => (prefix_append [a,b] [c,d]).sublist.trans
    cases segment <;> cases text <;> cases reasoning <;>
      simp [begun,Mode.begins,Mode.next,ih,text_begun,reasoning_begun,ResumesFrom,cons_sublist_cons']
    all_goals grind

def Mode.keys (m : Mode) : Finset PartKey :=
  (if m.text then {.text TEXT_PART_ID} else ∅) ∪ if m.reasoning then {.reasoning REASONING_PART_ID} else ∅

def OnlyTools (tools : Finset PartKey) : Prop := ∀ key ∈ tools, ∃ id, key = .toolInput id

variable {tools : Finset PartKey}

theorem OnlyTools.not_text (only : OnlyTools tools) (id : PartId) : .text id ∉ tools := by
  intro member
  obtain ⟨_,same⟩ := only _ member
  cases same

theorem OnlyTools.not_reasoning (only : OnlyTools tools) (id : PartId) : .reasoning id ∉ tools := by
  intro member
  obtain ⟨_,same⟩ := only _ member
  cases same

variable {ε : Type}

def ChatStreamState.mode (s : ChatStreamState ε) : Mode := ⟨s.text_active,s.reasoning_active⟩

structure Shows (m : Mode) (parts : List StreamPart) (segments : List Segment) : Prop where
  proper : ∀ tools : Finset PartKey, OnlyTools tools → Proper (m.keys ∪ tools) parts ((m.after segments).keys ∪ tools)
  started : parts.filterMap partId = begun m segments
  noTools : parts.filterMap toolInputId = []

theorem Shows.nil (m : Mode) : Shows m [] [] := ⟨fun _ _ => .nil _,rfl,rfl⟩

variable {before after : List StreamPart} {first second : List Segment}

theorem Shows.append {m : Mode} (shows₁ : Shows m before first) (shows₂ : Shows (m.after first) after second) :
    Shows m (before ++ after) (first ++ second) := by
  refine ⟨fun tools only => ?_,?_,?_⟩
  · have whole := (shows₁.proper tools only).append (shows₂.proper tools only)
    rwa [Mode.after,Mode.after,← foldl_append] at whole
  · rw [filterMap_append,begun_append,shows₁.started,shows₂.started]
  · rw [filterMap_append,shows₁.noTools,shows₂.noTools]
    rfl

def Mode.reasoningParts (m : Mode) (delta : String) : List StreamPart :=
  (if m.text then [.TextEnd TEXT_PART_ID none] else []) ++
    (if m.reasoning then [] else [.ReasoningStart REASONING_PART_ID none]) ++ [.ReasoningDelta REASONING_PART_ID delta none]

def Mode.textParts (m : Mode) (delta : String) : List StreamPart :=
  (if m.reasoning then [.ReasoningEnd REASONING_PART_ID none] else []) ++
    (if m.text then [] else [.TextStart TEXT_PART_ID none]) ++ [.text_delta TEXT_PART_ID delta]

theorem reasoningParts_shows (m : Mode) (delta : String) : Shows m (m.reasoningParts delta) [.Reasoning] := by
  obtain ⟨text,reasoning⟩ := m
  refine ⟨fun tools only => ⟨?_,?_⟩,?_,?_⟩
  · cases text <;> cases reasoning <;>
      simp [Mode.reasoningParts,Stream.Inner,isTerminal,StreamContractChecker.isStreamStart]
  · have noText := only.not_text TEXT_PART_ID
    have noReasoning := only.not_reasoning REASONING_PART_ID
    cases text <;> cases reasoning <;>
      simp [Mode.reasoningParts,Mode.after,Mode.next,Mode.keys,marks,mark,run,step,noText,noReasoning]
    all_goals grind
  · cases text <;> cases reasoning <;> rfl
  · cases text <;> cases reasoning <;> rfl

theorem textParts_shows (m : Mode) (delta : String) : Shows m (m.textParts delta) [.Text] := by
  obtain ⟨text,reasoning⟩ := m
  refine ⟨fun tools only => ⟨?_,?_⟩,?_,?_⟩
  · cases text <;> cases reasoning <;>
      simp [Mode.textParts,StreamPart.text_delta,Stream.Inner,isTerminal,StreamContractChecker.isStreamStart]
  · have noText := only.not_text TEXT_PART_ID
    have noReasoning := only.not_reasoning REASONING_PART_ID
    cases text <;> cases reasoning <;>
      simp [Mode.textParts,StreamPart.text_delta,Mode.after,Mode.next,Mode.keys,marks,mark,run,step,noText,noReasoning]
    all_goals grind
  · cases text <;> cases reasoning <;> rfl
  · cases text <;> cases reasoning <;> rfl

theorem end_reasoning_shows (s : ChatStreamState ε) : Shows s.mode s.end_reasoning.2 [.Tools] := by
  obtain ⟨_,_,_,_,_,text,reasoning,_⟩ := s
  refine ⟨fun tools only => ⟨?_,?_⟩,?_,?_⟩
  · cases reasoning <;>
      simp [end_reasoning,Stream.Inner,isTerminal,StreamContractChecker.isStreamStart]
  · have noReasoning := only.not_reasoning REASONING_PART_ID
    cases text <;> cases reasoning <;>
      simp [end_reasoning,mode,Mode.after,Mode.next,Mode.keys,marks,mark,step,
        noReasoning]
    all_goals grind
  · cases text <;> cases reasoning <;> rfl
  · cases text <;> cases reasoning <;> rfl

structure Spoke (s s' : ChatStreamState ε) (segments : List Segment) : Prop where
  mode : s'.mode = s.mode.after segments
  rest : s' = { s with text_active := s'.text_active,reasoning_active := s'.reasoning_active }

theorem reasoning_delta_spoke (s : ChatStreamState ε) (delta : String) :
    Spoke s (s.reasoning_delta delta).1 [.Reasoning] ∧ (s.reasoning_delta delta).2 = s.mode.reasoningParts delta :=
  ⟨⟨rfl,rfl⟩,rfl⟩

def segmentOf : Content → Option Segment
  | .Reasoning .. => some .Reasoning
  | .Text .. => some .Text
  | _ => none

variable {s'' : ChatStreamState ε}

theorem Spoke.trans {s s' : ChatStreamState ε} (spoke₁ : Spoke s s' first)
    (spoke₂ : Spoke s' s'' second) : Spoke s s'' (first ++ second) := by
  obtain ⟨mode₁,rest₁⟩ := spoke₁
  obtain ⟨mode₂,rest₂⟩ := spoke₂
  refine ⟨?_,?_⟩
  · rw [mode₂,mode₁,Mode.after,Mode.after,Mode.after,foldl_append]
  · rw [rest₂,rest₁]

theorem content_shows (s : ChatStreamState ε) (content : Content) :
    Spoke s (s.content content).1 (segmentOf content).toList ∧
      Shows s.mode (s.content content).2 (segmentOf content).toList := by
  cases content with
  | Text text => exact ⟨⟨rfl,rfl⟩,textParts_shows s.mode text⟩
  | Reasoning text => exact ⟨⟨rfl,rfl⟩,reasoningParts_shows s.mode text⟩
  | _ => exact ⟨⟨rfl,rfl⟩,.nil _⟩

theorem contents_show (contents : List Content) : ∀ s : ChatStreamState ε,
    Spoke s (ChatStreamState.collect ChatStreamState.content s contents).1 (contents.filterMap segmentOf) ∧
      Shows s.mode (ChatStreamState.collect ChatStreamState.content s contents).2 (contents.filterMap segmentOf) := by
  induction contents with
  | nil => intro s; exact ⟨⟨rfl,rfl⟩,.nil _⟩
  | cons content rest ih =>
    intro s
    obtain ⟨spoke₁,shows₁⟩ := content_shows s content
    obtain ⟨spoke₂,shows₂⟩ := ih (s.content content).1
    have segments : (content :: rest).filterMap segmentOf = (segmentOf content).toList ++ rest.filterMap segmentOf := by
      rw [filterMap_cons]
      cases segmentOf content <;> rfl
    rw [segments]
    exact ⟨spoke₁.trans spoke₂,shows₁.append (spoke₁.mode ▸ shows₂)⟩

section
variable {generate_id : Nat → String} {t : ToolCallTracker} {key : String} {delta : ChatToolCall}

def ToolCallTracker.ids (t : ToolCallTracker) : List String := t.calls.map (·.id)

def toolKeys (ids : List String) : Finset PartKey := (ids.map PartKey.toolInput).toFinset

structure Distinct (generate_id : Nat → String) (t : ToolCallTracker) : Prop where
  once : t.ids.Nodup
  known : ∀ id ∈ t.ids, (t.by_id.lookup id).isSome
  latest : ∀ id, (t.by_id.lookup id).isSome → t.latest.isSome
  indexed : ∀ index, (t.by_index.lookup index).isSome → t.latest.isSome
  unborn : ∀ n, t.generated ≤ n → generate_id n ∉ t.ids

def Own (generate_id : Nat → String) (id : Option String) : Prop := ∀ carried, id = some carried → ∀ n, generate_id n ≠ carried

/-- A tracker between two deltas. -/
structure Tracked (generate_id : Nat → String) (t : ToolCallTracker) : Prop extends Distinct generate_id t where
  forwarded : ∀ index ∈ t.forwarded, (t.by_index.lookup index).isSome
  waiting : ∀ index pending, t.pending.lookup index = some pending → Own generate_id pending.id

structure Extends (ids : List String) (parts : List StreamPart) (ids' : List String) : Prop where
  proper : ∀ base : Finset PartKey, (∀ id, .toolInput id ∉ base) → Proper (base ∪ toolKeys ids) parts (base ∪ toolKeys ids')
  started : ids' = ids ++ parts.filterMap toolInputId
  noParts : parts.filterMap partId = []

theorem Extends.nil (ids : List String) : Extends ids [] ids := ⟨fun _ _ => .nil _,by simp,rfl⟩

variable {ids : List String}

theorem Extends.trans {ids' ids'' : List String} (first : Extends ids before ids')
    (second : Extends ids' after ids'') : Extends ids (before ++ after) ids'' := by
  refine ⟨fun base free => (first.proper base free).append (second.proper base free),?_,?_⟩
  · rw [second.started,first.started,filterMap_append,append_assoc]
  · rw [filterMap_append,first.noParts,second.noParts]
    rfl

variable {id : String}

theorem mem_toolKeys : PartKey.toolInput id ∈ toolKeys ids ↔ id ∈ ids := by
  simp [toolKeys]

theorem Extends.fill {arguments : String} (tracked : id ∈ ids) :
    Extends ids [.ToolInputDelta id arguments none] ids := by
  refine ⟨fun base _ => ⟨?_,?_⟩,by simp [toolInputId],rfl⟩
  · simp [Stream.Inner,isTerminal,StreamContractChecker.isStreamStart]
  · have isOpen : PartKey.toolInput id ∈ base ∪ toolKeys ids := Finset.mem_union_right _ (mem_toolKeys.mpr tracked)
    exact run_within isOpen []

variable {name : String}

theorem Extends.start {metadata : Option ProviderMetadata} (fresh : id ∉ ids) :
    Extends ids [.ToolInputStart id name false false none metadata] (ids ++ [id]) := by
  refine ⟨fun base free => ⟨?_,?_⟩,rfl,rfl⟩
  · simp [Stream.Inner,isTerminal,StreamContractChecker.isStreamStart]
  · have closed : PartKey.toolInput id ∉ base ∪ toolKeys ids := by
      rw [Finset.mem_union,mem_toolKeys]
      exact not_or.mpr ⟨free id,fresh⟩
    have grown : insert (PartKey.toolInput id) (base ∪ toolKeys ids) = base ∪ toolKeys (ids ++ [id]) := by
      ext key
      simp only [toolKeys,map_append,map_cons,map_nil,Finset.mem_insert,Finset.mem_union,
        mem_toFinset,mem_append,mem_singleton]
      rw [or_comm,or_assoc]
    rw [← grown]
    exact run_opens closed []

variable {position : Nat}

theorem ids_set {call call' : TrackedToolCall} (found : t.calls[position]? = some call)
    (same : call'.id = call.id) : { t with calls := t.calls.set position call' }.ids = t.ids := by
  unfold ids
  refine ext_getElem? fun i => ?_
  rw [getElem?_map,getElem?_map]
  by_cases here : position = i
  · subst here
    obtain ⟨inside,_⟩ := List.getElem?_eq_some_iff.mp found
    simp [getElem?_set_self inside,found,same]
  · simp [getElem?_set_ne here]

theorem process_existing_extends (t : ToolCallTracker) (delta : ChatToolCall) (position : Nat) :
    Extends t.ids (t.process_existing position delta).2 t.ids ∧ (t.process_existing position delta).1.ids = t.ids ∧
      (t.process_existing position delta).1 = { t with calls := (t.process_existing position delta).1.calls } := by
  unfold process_existing
  cases found : t.calls[position]? with
  | none => exact ⟨.nil _,rfl,rfl⟩
  | some call =>
    have kept : (signed delta call).id = call.id := by
      unfold signed
      split_ifs <;> rfl
    have tracked : (signed delta call).id ∈ t.ids :=
      List.mem_map.mpr ⟨call,mem_of_getElem? found,kept.symm⟩
    dsimp only
    cases delta.arguments.filter (· ≠ "") with
    | none => exact ⟨.nil _,ids_set found kept,rfl⟩
    | some => exact ⟨.fill tracked,ids_set found kept,rfl⟩

theorem newId_fresh (injective : Function.Injective generate_id) (distinct : Distinct generate_id t)
    (own : Own generate_id delta.id) (untracked : t.existing delta = none) :
    (t.newId generate_id delta).1 ∉ t.ids ∧
      ∀ n, (t.newId generate_id delta).2 ≤ n → generate_id n ∉ t.ids ++ [(t.newId generate_id delta).1] := by
  unfold newId
  cases carried : delta.id.filter (· ≠ "") with
  | some id =>
    obtain ⟨here,filled⟩ := Option.filter_eq_some_iff.mp carried
    have named : id ≠ "" := by simpa using filled
    have absent : id ∉ t.ids := by
      intro mem
      obtain ⟨_,found⟩ := Option.isSome_iff_exists.mp (distinct.known id mem)
      simp [existing,here,named,found] at untracked
    refine ⟨absent,fun n later => ?_⟩
    rw [mem_append,mem_singleton]
    exact not_or.mpr ⟨distinct.unborn n later,own id here n⟩
  | none =>
    refine ⟨distinct.unborn _ (Nat.le_refl _),fun n later => ?_⟩
    rw [mem_append,mem_singleton]
    refine not_or.mpr ⟨distinct.unborn n (Nat.le_of_succ_le later),fun same => ?_⟩
    exact absurd (injective same) (Nat.ne_of_gt later)

theorem process_new_extends (key : String) (injective : Function.Injective generate_id)
    (distinct : Distinct generate_id t) (own : Own generate_id delta.id) (untracked : t.existing delta = none)
    (named : delta.name = some name) :
    ∃ t' position parts, t.process_new generate_id key delta = .ok (t',position,parts) ∧ Extends t.ids parts t'.ids ∧
      (∀ latest : Option Nat, latest.isSome → Distinct generate_id { t' with latest := latest }) ∧
      t'.by_index = t.by_index ∧ t'.pending = t.pending ∧ t'.forwarded = t.forwarded := by
  obtain ⟨fresh,unborn⟩ := newId_fresh injective distinct own untracked
  simp only [process_new,named]
  have ids : ∀ t' : ToolCallTracker, t'.calls = t.calls ++ [⟨(t.newId generate_id delta).1,name,
      delta.arguments.getD "",signatureMetadata key delta⟩] →
        t'.ids = t.ids ++ [(t.newId generate_id delta).1] := by
    intro t' calls
    rw [ids,calls]
    exact map_append
  refine ⟨_,_,_,rfl,?_,?_,rfl,rfl,rfl⟩
  · refine (congrArg (Extends t.ids _) (ids _ rfl)).mpr ?_
    rw [← singleton_append]
    refine (Extends.start fresh).trans ?_
    split_ifs with empty
    · exact .nil _
    · exact .fill (by simp)
  · intro latest some_
    refine ⟨?_,?_,fun _ _ => some_,fun _ _ => some_,?_⟩
    · rw [ids _ rfl,nodup_append]
      refine ⟨distinct.once,nodup_singleton _,?_⟩
      intro a mem b same equal
      rw [mem_singleton] at same
      exact fresh (same ▸ equal ▸ mem)
    · intro id mem
      rw [ids _ rfl,mem_append,mem_singleton] at mem
      rw [lookup_put]
      split_ifs with same
      · rfl
      · exact distinct.known id (mem.resolve_right same)
    · intro n later
      rw [ids _ rfl]
      exact unborn n later

structure Processes (generate_id : Nat → String) (t : ToolCallTracker) (index : Option Nat) (parts : List StreamPart)
    (t' : ToolCallTracker) : Prop where
  grown : Extends t.ids parts t'.ids
  distinct : Distinct generate_id t'
  latest : t'.latest.isSome
  indices : ∀ i, (t.by_index.lookup i).isSome ∨ index = some i → (t'.by_index.lookup i).isSome
  pending : t'.pending = t.pending
  forwarded : t'.forwarded = t.forwarded

theorem settle_indices {index : Option Nat} {i : Nat} (known : (t.by_index.lookup i).isSome ∨ index = some i) :
    ((t.settle index position).by_index.lookup i).isSome := by
  cases index with
  | none => simpa [settle] using known
  | some =>
    simp only [settle,lookup_put]
    split_ifs with same
    · rfl
    · exact known.resolve_right fun equal => same (Option.some.inj equal).symm

variable {t' : ToolCallTracker}

theorem Distinct.settle (distinct : Distinct generate_id t) (ids : t'.ids = t.ids)
    (by_id : t'.by_id = t.by_id) (latest : t'.latest.isSome) (generated : t'.generated = t.generated) :
    Distinct generate_id t' := by
  refine ⟨?_,?_,fun _ _ => latest,fun _ _ => latest,?_⟩
  · rw [ids]
    exact distinct.once
  · rw [ids,by_id]
    exact distinct.known
  · rw [ids,generated]
    exact distinct.unborn

theorem process_delta_cases (key : String) (delta : ChatToolCall) (injective : Function.Injective generate_id)
    (distinct : Distinct generate_id t) (own : Own generate_id delta.id) :
    (t.existing delta = none ∧ delta.name = none ∧
      t.process_delta generate_id key delta = (t,[.error ToolCallTracker.missingName])) ∨
    ((t.existing delta).isSome ∨ delta.name.isSome) ∧ Processes generate_id t delta.index
      (t.process_delta generate_id key delta).2 (t.process_delta generate_id key delta).1 := by
  cases found : t.existing delta with
  | some position =>
    obtain ⟨grown,ids,same⟩ := process_existing_extends t delta position
    have result : t.process_delta generate_id key delta =
        ((t.process_existing position delta).1.settle delta.index position,(t.process_existing position delta).2) := by
      simp [process_delta,found]
    rw [result]
    generalize t.process_existing position delta = after at grown ids same
    obtain ⟨t',parts⟩ := after
    dsimp only at grown ids same ⊢
    have settled : (t'.settle delta.index position).ids = t.ids := ids
    have indices : t'.by_index = t.by_index := by rw [same]
    have byId : t'.by_id = t.by_id := by rw [same]
    have generated : t'.generated = t.generated := by rw [same]
    have pending : t'.pending = t.pending := by rw [same]
    have forwarded : t'.forwarded = t.forwarded := by rw [same]
    refine .inr ⟨.inl rfl,settled.symm ▸ grown,distinct.settle settled byId rfl generated,rfl,?_,pending,forwarded⟩
    exact fun i known => settle_indices (indices ▸ known)
  | none =>
    cases named : delta.name with
    | none =>
      refine .inl ⟨rfl,rfl,?_⟩
      simp [process_delta,found,process_new,named]
    | some =>
      obtain ⟨t',position,parts,new,grown,distinct',indices,pending,forwarded⟩ :=
        process_new_extends key injective distinct own found named
      have result : t.process_delta generate_id key delta = (t'.settle delta.index position,parts) := by
        simp [process_delta,found,new]
      rw [result]
      refine .inr ⟨.inr rfl,grown,(distinct' (some position) rfl).settle rfl rfl rfl rfl,rfl,?_,pending,forwarded⟩
      exact fun i known => settle_indices (indices ▸ known)

def Orphan (t : ToolCallTracker) (delta : ChatToolCall) : Prop :=
  delta.index = none ∧ delta.name = none ∧ t.latest = none

theorem existing_latest (distinct : Distinct generate_id t) (found : (t.existing delta).isSome) : t.latest.isSome := by
  unfold existing at found
  split at found
  case h_1 position byId =>
    obtain ⟨id,-,known⟩ := Option.bind_eq_some_iff.mp byId
    split_ifs at known
    exact distinct.latest id (known ▸ rfl)
  case h_2 =>
    cases index : delta.index with
    | some index =>
      rw [index] at found
      exact distinct.indexed _ found
    | none =>
      rw [index] at found
      exact found

theorem Own.orElse {first second : Option String} (own₁ : Own generate_id first) (own₂ : Own generate_id second) :
    Own generate_id (first <|> second) := by
  cases first with
  | none => exact own₂
  | some => exact own₁

structure Follows (generate_id : Nat → String) (t : ToolCallTracker) (delta : ChatToolCall) (parts : List StreamPart)
    (t' : ToolCallTracker) : Prop where
  home : ¬ Orphan t delta
  grown : Extends t.ids parts t'.ids
  tracked : Tracked generate_id t'
  latest : t'.latest.isSome ↔ t.latest.isSome ∨ delta.name.isSome

theorem Processes.follows {parts : List StreamPart} (tracked : Tracked generate_id t)
    (placed : (t.existing delta).isSome ∨ delta.name.isSome)
    (processes : Processes generate_id t delta.index parts t') : Follows generate_id t delta parts t' := by
  have before : t.latest.isSome ∨ delta.name.isSome := placed.imp_left (existing_latest tracked.toDistinct)
  refine ⟨?_,processes.grown,⟨processes.distinct,?_,?_⟩,iff_of_true processes.latest before⟩
  · rintro ⟨-,unnamed,none⟩
    simp [unnamed,none] at before
  · intro index member
    rw [processes.forwarded] at member
    exact processes.indices index (.inl (tracked.forwarded index member))
  · rw [processes.pending]
    exact tracked.waiting

theorem process_cases (key : String) (injective : Function.Injective generate_id) (tracked : Tracked generate_id t)
    (own : Own generate_id delta.id) :
    (Orphan t delta ∧ t.process generate_id key delta = (t,[.error ToolCallTracker.missingName])) ∨
    Follows generate_id t delta (t.process generate_id key delta).2 (t.process generate_id key delta).1 := by
  have direct := process_delta_cases key delta injective tracked.toDistinct own
  cases here : delta.index with
  | none =>
    have result : t.process generate_id key delta = t.process_delta generate_id key delta := by
      simp [process,here]
    rw [result]
    rcases direct with ⟨untracked,unnamed,failed⟩ | ⟨placed,processes⟩
    · refine .inl ⟨⟨here,unnamed,?_⟩,failed⟩
      simp only [existing,here] at untracked
      split at untracked
      · cases untracked
      · exact untracked
    · exact .inr (processes.follows tracked placed)
  | some index =>
    have home : ¬ Orphan t delta := by
      rintro ⟨none,-,-⟩
      rw [here] at none
      cases none
    by_cases forwarded : index ∈ t.forwarded
    · have result : t.process generate_id key delta = t.process_delta generate_id key delta := by
        simp [process,here,forwarded]
      rw [result]
      rcases direct with ⟨untracked,-,-⟩ | ⟨placed,processes⟩
      · have known := tracked.forwarded index forwarded
        simp only [existing,here] at untracked
        split at untracked
        · cases untracked
        · simp [untracked] at known
      · exact .inr (processes.follows tracked placed)
    · -- The delta joins what waits under its index; only with a name it goes on.
      have ownWaiting : Own generate_id ((t.pending.lookup index).getD ⟨none,"",none⟩).id := by
        cases waiting : t.pending.lookup index with
        | none => exact fun _ absent => by cases absent
        | some pending => exact tracked.waiting index pending waiting
      have ownJoined := ownWaiting.orElse own
      cases named : delta.name with
      | none =>
        simp only [process,here,forwarded,if_false,named]
        refine .inr ⟨home,.nil _,⟨?_,tracked.forwarded,?_⟩,by simp [named]⟩
        · exact ⟨tracked.once,tracked.known,tracked.latest,tracked.indexed,tracked.unborn⟩
        · intro other pending waiting
          rw [lookup_put] at waiting
          split_ifs at waiting
          · cases waiting
            exact ownJoined
          · exact tracked.waiting other pending waiting
      | some name =>
        simp only [process,here,forwarded,if_false,named]
        have distinct : Distinct generate_id
            { t with pending := remove t.pending index,forwarded := t.forwarded ++ [index] } :=
          ⟨tracked.once,tracked.known,tracked.latest,tracked.indexed,tracked.unborn⟩
        rcases process_delta_cases key ⟨some index,_,some ⟨some name,_⟩,_⟩ injective distinct ownJoined with
          ⟨-,unnamed,-⟩ | ⟨-,processes⟩
        · cases unnamed
        · refine .inr ⟨home,processes.grown,⟨processes.distinct,?_,?_⟩,iff_of_true processes.latest (.inr (by rw [named]; rfl))⟩
          · intro other mem
            rw [processes.forwarded] at mem
            rcases List.mem_append.mp mem with earlier | new
            · exact processes.indices other (.inl (tracked.forwarded other earlier))
            · exact processes.indices other (.inr (congrArg some (List.mem_singleton.mp new).symm))
          · intro other pending waiting
            rw [processes.pending,lookup_remove] at waiting
            split_ifs at waiting
            exact tracked.waiting other pending waiting

/-- Some delta of the list is an orphan, where a call is tracked already if `named`. -/
def orphaned : Bool → List ChatToolCall → Bool
  | _, [] => false
  | named, delta :: rest =>
    (!named && delta.index.isNone && delta.name.isNone) || orphaned (named || delta.name.isSome) rest

/-- The round of `tool_call_deltas`. -/
def ToolCallTracker.round (generate_id : Nat → String) (key : String) (t : ToolCallTracker) (call : ChatToolCall) :
    ToolCallTracker × List StreamPart := t.process generate_id key call

theorem rounds_cases (key : String) (injective : Function.Injective generate_id) (calls : List ChatToolCall) :
    ∀ {t : ToolCallTracker}, Tracked generate_id t → (∀ call ∈ calls, Own generate_id call.id) →
    (orphaned t.latest.isSome calls = true ∧ ∃ before error after ids',
      (ChatStreamState.collect (ToolCallTracker.round generate_id key) t calls).2 = before ++ .Error error :: after ∧
        Extends t.ids before ids' ∧ ids'.Nodup) ∨
    (orphaned t.latest.isSome calls = false ∧ ∃ t' parts,
      ChatStreamState.collect (ToolCallTracker.round generate_id key) t calls = (t',parts) ∧
        Extends t.ids parts t'.ids ∧ Tracked generate_id t' ∧
          t'.latest.isSome = (t.latest.isSome || calls.any (·.name.isSome))) := by
  induction calls with
  | nil => intro t tracked _; exact .inr ⟨rfl,t,[],rfl,.nil _,tracked,by simp⟩
  | cons call rest ih =>
    intro t tracked own
    have collected : ∀ t' parts, t.process generate_id key call = (t',parts) →
        ChatStreamState.collect (ToolCallTracker.round generate_id key) t (call :: rest) =
          ((ChatStreamState.collect (ToolCallTracker.round generate_id key) t' rest).1,
            parts ++ (ChatStreamState.collect (ToolCallTracker.round generate_id key) t' rest).2) := by
      intro t' parts processed
      simp only [ChatStreamState.collect,ToolCallTracker.round,processed]
    rcases process_cases key injective tracked (own call mem_cons_self) with
      ⟨⟨unplaced,unnamed,first⟩,failed⟩ | follows
    · have orphan : orphaned t.latest.isSome (call :: rest) = true := by simp [orphaned,unplaced,unnamed,first]
      have failing := congrArg Prod.snd (collected _ _ failed)
      exact .inl ⟨orphan,[],.from_provider_error missingName,_,t.ids,failing,.nil _,tracked.once⟩
    · obtain ⟨home,grown,tracked',latest⟩ := follows
      generalize processed : t.process generate_id key call = after at grown tracked' latest
      obtain ⟨t',parts⟩ := after
      dsimp only at grown tracked' latest
      have sameLatest : t'.latest.isSome = (t.latest.isSome || call.name.isSome) := by
        rw [Bool.eq_iff_iff,Bool.or_eq_true]
        exact latest
      have unfolded : orphaned t.latest.isSome (call :: rest) = orphaned t'.latest.isSome rest := by
        rw [orphaned,sameLatest]
        have placed : (!t.latest.isSome && call.index.isNone && call.name.isNone) = false := by
          by_contra orphan
          simp only [Bool.not_eq_false,Bool.and_eq_true,Bool.not_eq_true',Option.isNone_iff_eq_none,
            Option.isSome_eq_false_iff] at orphan
          exact home ⟨orphan.1.2,orphan.2,orphan.1.1⟩
        rw [placed,Bool.false_or]
      rw [unfolded,collected _ _ processed]
      rcases ih tracked' (fun c m => own c (mem_cons_of_mem _ m)) with
        ⟨orphan,before,error,after,ids',failed,grown',once⟩ | ⟨noOrphan,t'',later,collected',grown',tracked'',latest'⟩
      · refine .inl ⟨orphan,parts ++ before,error,after,ids',?_,grown.trans grown',once⟩
        rw [failed,append_assoc]
      · refine .inr ⟨noOrphan,t'',parts ++ later,?_,grown.trans grown',tracked'',?_⟩
        · rw [collected']
        · rw [latest',sameLatest,any_cons,Bool.or_assoc]

end

/-! ### Chunks -/

section
variable {m : Mode} {ids ids' ids'' : List String} {before after parts : List StreamPart}
  {first second segments : List Segment}

/-- Parts that take a mode and the tracked ids along, without an error. -/
structure Emits (m : Mode) (ids : List String) (parts : List StreamPart) (segments : List Segment)
    (ids' : List String) : Prop where
  proper : Proper (m.keys ∪ toolKeys ids) parts ((m.after segments).keys ∪ toolKeys ids')
  started : parts.filterMap partId = begun m segments
  extended : ids' = ids ++ parts.filterMap toolInputId
  once : ids'.Nodup

theorem Shows.emits (shows : Shows m parts segments) (once : ids.Nodup) : Emits m ids parts segments ids := by
  refine ⟨shows.proper _ ?_,shows.started,by simp [shows.noTools],once⟩
  intro key mem
  simp only [toolKeys,mem_toFinset,mem_map] at mem
  obtain ⟨id,-,rfl⟩ := mem
  exact ⟨id,rfl⟩

theorem Mode.keys_noTool (m : Mode) (id : String) : .toolInput id ∉ m.keys := by
  obtain ⟨text,reasoning⟩ := m
  cases text <;> cases reasoning <;> simp [Mode.keys]

theorem Extends.emits (extends_ : Extends ids parts ids') (once : ids'.Nodup) : Emits m ids parts [] ids' :=
  ⟨extends_.proper _ m.keys_noTool,extends_.noParts,extends_.started,once⟩

theorem Emits.append (emits₁ : Emits m ids before first ids') (emits₂ : Emits (m.after first) ids' after second ids'') :
    Emits m ids (before ++ after) (first ++ second) ids'' := by
  refine ⟨?_,?_,?_,emits₂.once⟩
  · have whole := emits₁.proper.append emits₂.proper
    rwa [Mode.after,Mode.after,← foldl_append] at whole
  · rw [filterMap_append,begun_append,emits₁.started,emits₂.started]
  · rw [emits₂.extended,emits₁.extended,filterMap_append,append_assoc]

theorem Emits.quiet (m : Mode) (once : ids.Nodup) (inner : ∀ part ∈ parts, Inner part) (unmarked : marks parts = [])
    (noParts : parts.filterMap partId = []) (noTools : parts.filterMap toolInputId = []) : Emits m ids parts [] ids :=
  ⟨⟨inner,by rw [unmarked]; rfl⟩,noParts,by simp [noTools],once⟩

/-- The output from some state on. -/
structure Lives (m : Mode) (ids : List String) (parts : List StreamPart) (segments : List Segment) : Prop where
  sound : Sound (m.keys ∪ toolKeys ids) parts
  started : (live parts).filterMap partId = begun m segments
  once : (ids ++ (live parts).filterMap toolInputId).Nodup

theorem Emits.lives (emits : Emits m ids before first ids') (lives : Lives (m.after first) ids' after second) :
    Lives m ids (before ++ after) (first ++ second) := by
  have alive : live (before ++ after) = before ++ live after := live_inner after emits.proper.inner
  refine ⟨emits.proper.sound lives.sound,?_,?_⟩
  · rw [alive,filterMap_append,begun_append,emits.started,lives.started]
  · rw [alive,filterMap_append,← append_assoc,← emits.extended]
    exact lives.once

theorem Emits.fails (emits : Emits m ids before segments ids') (error : StreamError) (after : List StreamPart) :
    Lives m ids (before ++ .Error error :: after) segments := by
  have alive : live (before ++ .Error error :: after) = before := by
    rw [live_inner _ emits.proper.inner]
    exact append_nil before
  refine ⟨.failed error after emits.proper,?_,?_⟩
  · rw [alive,emits.started]
  · rw [alive,← emits.extended]
    exact emits.once

end

def ChatMessage.segments (delta : ChatMessage) : List Segment :=
  (if (delta.reasoning_text.filter (· ≠ "")).isSome then [.Reasoning] else []) ++
    (convert_content delta.content).filterMap segmentOf ++
    if delta.tool_calls.getD [] = [] then [] else [.Tools]

/-- The delta that `handle_value` looks at. -/
def ChatResponse.message (value : ChatResponse) : Option ChatMessage :=
  (value.choices.bind List.head?).bind (·.delta)

/-- The segments of a stream up to its first error. A stream fails at a chunk
    that is no completion, at an error, and at an orphaned tool call. -/
def outline : Bool → List (ParseResult ChatResponse) → List Segment
  | _, [] => []
  | _, .Err .. :: _ => []
  | named, .Ok value _ :: rest =>
    if value.error.isSome then []
    else match value.message with
      | none => outline named rest
      | some delta =>
        let calls := delta.tool_calls.getD []
        delta.segments ++ if orphaned named calls then [] else outline (named || calls.any (·.name.isSome)) rest

def carriedIds (chunks : List (ParseResult ChatResponse)) : List String :=
  chunks.flatMap fun
    | .Ok value _ => match value.message with
      | some delta => (delta.tool_calls.getD []).filterMap (·.id)
      | none => []
    | .Err .. => []

section
variable {config : Config ε} {s s' : ChatStreamState ε} {parts : List StreamPart} {segments : List Segment}

/-- A step without an error. -/
structure Goes (config : Config ε) (s s' : ChatStreamState ε) (parts : List StreamPart) (segments : List Segment) : Prop where
  emits : Emits s.mode s.tool_calls.ids parts segments s'.tool_calls.ids
  mode : s'.mode = s.mode.after segments
  tracked : Tracked config.generate_id s'.tool_calls

def Stops (s : ChatStreamState ε) (parts : List StreamPart) (segments : List Segment) : Prop :=
  ∃ before error after ids', parts = before ++ .Error error :: after ∧
    Emits s.mode s.tool_calls.ids before segments ids'

theorem Goes.trans (goes₁ : Goes config s s' before first) (goes₂ : Goes config s' s'' after second) :
    Goes config s s'' (before ++ after) (first ++ second) := by
  obtain ⟨emits₁,mode₁,-⟩ := goes₁
  obtain ⟨emits₂,mode₂,tracked⟩ := goes₂
  rw [mode₁] at emits₂ mode₂
  refine ⟨emits₁.append emits₂,?_,tracked⟩
  rw [mode₂,Mode.after,Mode.after,Mode.after,foldl_append]

theorem Goes.stops (goes : Goes config s s' before first)
    (stops : Stops s' after second) : Stops s (before ++ after) (first ++ second) := by
  obtain ⟨early,error,late,ids',rfl,emits⟩ := stops
  rw [goes.mode] at emits
  exact ⟨before ++ early,error,late,ids',by rw [append_assoc],goes.emits.append emits⟩

theorem Spoke.goes (spoke : Spoke s s' segments) (shows : Shows s.mode parts segments)
    (tracked : Tracked config.generate_id s.tool_calls) : Goes config s s' parts segments := by
  have same : s'.tool_calls = s.tool_calls := by rw [spoke.rest]
  refine ⟨?_,spoke.mode,same ▸ tracked⟩
  rw [same]
  exact shows.emits tracked.once

theorem tool_call_deltas_cases (injective : Function.Injective config.generate_id) (calls : List ChatToolCall)
    (tracked : Tracked config.generate_id s.tool_calls) (own : ∀ call ∈ calls, Own config.generate_id call.id) :
    (orphaned s.tool_calls.latest.isSome calls = true ∧
      Stops s (s.tool_call_deltas config calls).2 (if calls = [] then [] else [.Tools])) ∨
    (orphaned s.tool_calls.latest.isSome calls = false ∧
      Goes config s (s.tool_call_deltas config calls).1 (s.tool_call_deltas config calls).2
        (if calls = [] then [] else [.Tools]) ∧
      (s.tool_call_deltas config calls).1.tool_calls.latest.isSome =
        (s.tool_calls.latest.isSome || calls.any (·.name.isSome))) := by
  by_cases none : calls = []
  · subst none
    exact .inr ⟨rfl,⟨(Extends.nil _).emits tracked.once,rfl,tracked⟩,(Bool.or_false _).symm⟩
  · have ended : Emits s.mode s.tool_calls.ids s.end_reasoning.2 [.Tools] s.tool_calls.ids :=
      (end_reasoning_shows s).emits tracked.once
    have collected : s.tool_call_deltas config calls =
        ({ s.end_reasoning.1 with tool_calls := (ChatStreamState.collect
            (ToolCallTracker.round config.generate_id s.metadata_key) s.tool_calls calls).1 },
          s.end_reasoning.2 ++ (ChatStreamState.collect
            (ToolCallTracker.round config.generate_id s.metadata_key) s.tool_calls calls).2) := by
      rw [tool_call_deltas,if_neg none]
      rfl
    rw [collected,if_neg none]
    rcases rounds_cases s.metadata_key injective calls tracked own with
      ⟨orphan,before,error,after,ids',failed,grown,once⟩ | ⟨noOrphan,t',parts,whole,grown,tracked',latest⟩
    · refine .inl ⟨orphan,s.end_reasoning.2 ++ before,error,after,ids',?_,ended.append (grown.emits once)⟩
      rw [failed,append_assoc]
    · rw [whole]
      exact .inr ⟨noOrphan,⟨ended.append (grown.emits tracked'.once),rfl,tracked'⟩,latest⟩

theorem message_delta_cases (injective : Function.Injective config.generate_id) (delta : ChatMessage)
    (tracked : Tracked config.generate_id s.tool_calls)
    (own : ∀ call ∈ delta.tool_calls.getD [], Own config.generate_id call.id) :
    (orphaned s.tool_calls.latest.isSome (delta.tool_calls.getD []) = true ∧
      Stops s (s.message_delta config delta).2 delta.segments) ∨
    (orphaned s.tool_calls.latest.isSome (delta.tool_calls.getD []) = false ∧
      Goes config s (s.message_delta config delta).1 (s.message_delta config delta).2 delta.segments ∧
      (s.message_delta config delta).1.tool_calls.latest.isSome =
        (s.tool_calls.latest.isSome || (delta.tool_calls.getD []).any (·.name.isSome))) := by
  obtain ⟨s₁,reasoning,goes₁,same₁,result⟩ : ∃ s₁ reasoning,
      Goes config s s₁ reasoning (if (delta.reasoning_text.filter (· ≠ "")).isSome then [.Reasoning] else []) ∧
      s₁.tool_calls = s.tool_calls ∧ s.message_delta config delta =
        (((ChatStreamState.collect content s₁ (convert_content delta.content)).1.tool_call_deltas config
            (delta.tool_calls.getD [])).1,
          reasoning ++ (ChatStreamState.collect content s₁ (convert_content delta.content)).2 ++
            ((ChatStreamState.collect content s₁ (convert_content delta.content)).1.tool_call_deltas config
              (delta.tool_calls.getD [])).2) := by
    unfold message_delta
    cases delta.reasoning_text.filter (· ≠ "") with
    | none => exact ⟨s,[],⟨(Extends.nil _).emits tracked.once,rfl,tracked⟩,rfl,rfl⟩
    | some text =>
      have spoke := (reasoning_delta_spoke s text).1
      exact ⟨_,_,spoke.goes (reasoningParts_shows s.mode text) tracked,rfl,rfl⟩
  obtain ⟨spoke,shows⟩ := contents_show (convert_content delta.content) s₁
  have goes₂ : Goes config s₁ _ _ _ := spoke.goes shows (same₁ ▸ tracked)
  generalize ChatStreamState.collect content s₁ (convert_content delta.content) = after
    at spoke goes₂ result
  obtain ⟨s₂,_⟩ := after
  dsimp only at spoke goes₂ result
  have same₂ : s₂.tool_calls = s.tool_calls := by rw [spoke.rest,← same₁]
  rw [result,ChatMessage.segments,← same₂]
  rcases tool_call_deltas_cases injective _ (same₂ ▸ tracked) own with ⟨orphan,stops⟩ | ⟨noOrphan,goes₃,latest⟩
  · exact .inl ⟨orphan,(goes₁.trans goes₂).stops stops⟩
  · exact .inr ⟨noOrphan,(goes₁.trans goes₂).trans goes₃,latest⟩

theorem handle_eq {value : ChatResponse} (raw : JsonValue) (include_raw : Bool) (noError : value.error.isSome = false)
    (tracked : Tracked config.generate_id s.tool_calls) : ∃ s₁ lead, Goes config s s₁ lead [] ∧
      s₁.tool_calls = s.tool_calls ∧ ChatStreamState.handle config s (.Ok value raw) include_raw =
        match value.message with
        | none => (s₁,lead)
        | some delta => ((s₁.message_delta config delta).1,lead ++ (s₁.message_delta config delta).2) := by
  have quiet : ∀ first : Bool, Emits s.mode s.tool_calls.ids
      ((if include_raw then [StreamPart.Raw raw] else []) ++
        if first then [.ResponseMetadata value.id (timestamp_from_seconds value.created) value.model] else [])
      [] s.tool_calls.ids := by
    intro first
    refine .quiet s.mode tracked.once ?_ ?_ ?_ ?_ <;> cases include_raw <;> cases first <;>
      simp [Stream.Inner,isTerminal,StreamContractChecker.isStreamStart,marks,mark,partId,toolInputId]
  unfold handle handle_value ChatResponse.message
  simp only [noError,Bool.false_eq_true,if_false]
  cases value.choices.bind head? with
  | none =>
    refine ⟨_,_,?_,?_,rfl⟩ <;> cases value.usage
    all_goals first | rfl | exact ⟨quiet s.first_chunk,rfl,tracked⟩
  | some choice =>
    obtain ⟨delta,finish_reason⟩ := choice
    cases delta with
    | none =>
      refine ⟨_,_,?_,?_,rfl⟩ <;> cases value.usage <;> cases finish_reason
      all_goals first | rfl | exact ⟨quiet s.first_chunk,rfl,tracked⟩
    | some =>
      refine ⟨_,_,?_,?_,Prod.ext rfl (append_assoc _ _ _).symm⟩ <;> cases value.usage <;> cases finish_reason
      all_goals first | rfl | exact ⟨quiet s.first_chunk,rfl,tracked⟩

theorem closing_proper (key : String) (calls : List TrackedToolCall) : (calls.map (·.id)).Nodup →
    Proper (toolKeys (calls.map (·.id))) (calls.flatMap (ToolCallTracker.closing key)) ∅ ∧
      (calls.flatMap (ToolCallTracker.closing key)).filterMap partId = [] ∧
      (calls.flatMap (ToolCallTracker.closing key)).filterMap toolInputId = [] := by
  induction calls with
  | nil => intro _; exact ⟨.nil _,rfl,rfl⟩
  | cons call rest ih =>
    intro once
    obtain ⟨fresh,once⟩ := List.nodup_cons.mp once
    obtain ⟨proper,noParts,noTools⟩ := ih once
    have closed : (toolKeys (call.id :: rest.map (·.id))).erase (.toolInput call.id) = toolKeys (rest.map (·.id)) := by
      rw [toolKeys,map_cons,toFinset_cons,Finset.erase_insert]
      · rfl
      · exact fun mem => fresh (mem_toolKeys.mp mem)
    have isOpen : .toolInput call.id ∈ toolKeys (call.id :: rest.map (·.id)) := by simp [toolKeys]
    have head : Proper (toolKeys (call.id :: rest.map (·.id))) (closing key call)
        (toolKeys (rest.map (·.id))) := by
      refine ⟨?_,?_⟩
      · simp [closing,Stream.Inner,isTerminal,StreamContractChecker.isStreamStart]
      · rw [← closed]
        exact run_closes isOpen []
    rw [flatMap_cons,filterMap_append,filterMap_append,noParts,noTools]
    exact ⟨head.append proper,rfl,rfl⟩

theorem ends_proper (s : ChatStreamState ε) (tools : Finset PartKey) (only : OnlyTools tools) :
    Proper (s.mode.keys ∪ tools) (s.end_reasoning.2 ++ s.end_text.2) tools ∧
      (s.end_reasoning.2 ++ s.end_text.2).filterMap partId = [] ∧
      (s.end_reasoning.2 ++ s.end_text.2).filterMap toolInputId = [] := by
  obtain ⟨_,_,_,_,_,text,reasoning,_⟩ := s
  refine ⟨⟨?_,?_⟩,?_,?_⟩
  · cases text <;> cases reasoning <;>
      simp [end_reasoning,end_text,Stream.Inner,isTerminal,
        StreamContractChecker.isStreamStart]
  · have noText := only.not_text TEXT_PART_ID
    have noReasoning := only.not_reasoning REASONING_PART_ID
    cases text <;> cases reasoning <;>
      simp [end_reasoning,end_text,mode,Mode.keys,marks,mark,run,step,
        noReasoning,noText]
    all_goals grind
  · cases text <;> cases reasoning <;> rfl
  · cases text <;> cases reasoning <;> rfl

theorem finish_lives (tracked : Tracked config.generate_id s.tool_calls) :
    Lives s.mode s.tool_calls.ids (ChatStreamState.finish config s) [] := by
  have nothing : Emits s.mode s.tool_calls.ids [] [] s.tool_calls.ids := (Extends.nil _).emits tracked.once
  have only : OnlyTools (toolKeys s.tool_calls.ids) := by
    intro key member
    obtain ⟨id,-,rfl⟩ := by simpa [toolKeys] using member
    exact ⟨id,rfl⟩
  obtain ⟨ends,noParts,noTools⟩ := ends_proper s _ only
  unfold finish
  cases s.finish_reason with
  | none => exact nothing.fails _ []
  | some =>
    dsimp only
    by_cases waiting : s.tool_calls.pending = []
    · obtain ⟨closes,noParts',noTools'⟩ := closing_proper s.metadata_key s.tool_calls.calls tracked.once
      have flushed : s.end_reasoning.1.end_text.1.tool_calls.flush s.end_reasoning.1.end_text.1.metadata_key =
          s.tool_calls.calls.flatMap (closing s.metadata_key) := if_neg (not_not.mpr waiting)
      have whole := ends.append closes
      have alive := fun last => live_inner [last] whole.inner
      rw [flushed]
      refine ⟨.finished whole,?_,?_⟩
      · refine (congrArg _ (alive _)).trans ?_
        simp only [filterMap_append,noParts,noParts']
        rfl
      · refine (congrArg (fun parts => (s.tool_calls.ids ++ parts.filterMap toolInputId).Nodup) (alive _)).mpr ?_
        simp only [filterMap_append,noTools,noTools']
        exact (append_nil s.tool_calls.ids).symm ▸ tracked.once
    · have flushed : s.end_reasoning.1.end_text.1.tool_calls.flush s.end_reasoning.1.end_text.1.metadata_key =
          [.error missingName] := if_pos waiting
      have alive := fun after => live_inner (.error missingName :: after) ends.inner
      rw [flushed,append_assoc]
      refine ⟨.failed _ _ ends,?_,?_⟩
      · refine (congrArg _ (alive _)).trans ?_
        rw [filterMap_append,noParts]
        rfl
      · refine (congrArg (fun parts => (s.tool_calls.ids ++ parts.filterMap toolInputId).Nodup) (alive _)).mpr ?_
        rw [filterMap_append,noTools]
        exact (append_nil s.tool_calls.ids).symm ▸ tracked.once

/-- The ids that the deltas of a stream carry are not generated. -/
def Foreign (generate_id : Nat → String) (chunks : List (ParseResult ChatResponse)) : Prop :=
  ∀ id ∈ carriedIds chunks, ∀ n, generate_id n ≠ id

theorem outputs_lives (injective : Function.Injective config.generate_id) (include_raw : Bool)
    (chunks : List (ParseResult ChatResponse)) : ∀ {s : ChatStreamState ε}, Tracked config.generate_id s.tool_calls →
    Foreign config.generate_id chunks →
    Lives s.mode s.tool_calls.ids (outputs (ChatStreamState.machine config) include_raw s chunks)
      (outline s.tool_calls.latest.isSome chunks) := by
  induction chunks with
  | nil => intro s tracked _; exact finish_lives tracked
  | cons chunk rest ih =>
    intro s tracked foreign
    have foreignRest : Foreign config.generate_id rest := by
      intro id carried
      exact foreign id (mem_append_right _ carried)
    have stepped : outputs (machine config) include_raw s (chunk :: rest) =
        (handle config s chunk include_raw).2 ++ outputs (machine config) include_raw
          (handle config s chunk include_raw).1 rest := rfl
    rw [stepped]
    cases chunk with
    | Err error raw =>
      obtain ⟨lead,quiet,failing⟩ : ∃ lead, Emits s.mode s.tool_calls.ids lead [] s.tool_calls.ids ∧
          (handle config s (.Err error raw) include_raw).2 = lead ++ [.error error] := by
        refine ⟨_,.quiet s.mode tracked.once ?_ ?_ ?_ ?_,rfl⟩ <;> cases raw <;> cases include_raw <;>
          simp [Stream.Inner,isTerminal,StreamContractChecker.isStreamStart,marks,mark,partId,toolInputId]
      rw [failing,append_assoc]
      exact quiet.fails (.from_provider_error error) _
    | Ok value raw =>
      cases error : value.error.isSome with
      | true =>
        have lead : Emits s.mode s.tool_calls.ids (if include_raw then [.Raw raw] else []) [] s.tool_calls.ids := by
          refine .quiet s.mode tracked.once ?_ ?_ ?_ ?_ <;> cases include_raw <;>
            simp [Stream.Inner,isTerminal,StreamContractChecker.isStreamStart,marks,mark,partId,toolInputId]
        have failing : (handle config s (.Ok value raw) include_raw).2 =
            (if include_raw then [.Raw raw] else []) ++
              [.Error (stream_error_for_frame config.error_structure raw)] := by
          simp only [handle,handle_value,error,if_true]
        rw [failing,outline,if_pos error,append_assoc]
        exact lead.fails _ _
      | false =>
        obtain ⟨s₁,_,goes₀,same,handled⟩ := handle_eq raw include_raw error tracked
        have sameLatest : s.tool_calls.latest = s₁.tool_calls.latest := by rw [same]
        rw [handled,outline,if_neg (by simp [error]),sameLatest]
        cases message : value.message with
        | none =>
          have later := ih goes₀.tracked foreignRest
          rw [goes₀.mode] at later
          rw [← nil_append (outline _ rest)]
          exact goes₀.emits.lives later
        | some delta =>
          have own : ∀ call ∈ delta.tool_calls.getD [], Own config.generate_id call.id := by
            intro call mem id carries n
            refine foreign id (mem_append_left _ ?_) n
            simp only [message]
            exact List.mem_filterMap.mpr ⟨call,mem,carries⟩
          dsimp only
          rcases message_delta_cases injective delta goes₀.tracked own with ⟨orphan,stops⟩ | ⟨noOrphan,goes₁,latest⟩
          · obtain ⟨_,failed,_,_,whole,emits⟩ := goes₀.stops stops
            rw [orphan,if_pos rfl,append_nil,whole,append_assoc,cons_append]
            exact emits.fails failed _
          · have goes := goes₀.trans goes₁
            have later := ih goes.tracked foreignRest
            rw [goes.mode,latest] at later
            rw [noOrphan,if_neg Bool.false_ne_true]
            exact goes.emits.lives later

/-- The stream obeys the contract exactly when nothing is resumed that was
    closed: the fixed ids serve only once. -/
theorem chat_stream_obeys_iff (injective : Function.Injective config.generate_id) (include_raw : Bool)
    (chunks : List (ParseResult ChatResponse)) (foreign : Foreign config.generate_id chunks)
    (warnings : List Warning) (metadata_key : String) (extractor : Option ε) :
    StreamContractChecker.check (drive_stream (.StreamStart warnings) chunks (ChatStreamState.machine config)
      (.new metadata_key extractor) include_raw) = .ok () ↔ ¬ Resumes (outline false chunks) := by
  have tracked : Tracked config.generate_id empty := by
    refine ⟨⟨?_,?_,?_,?_,?_⟩,?_,?_⟩ <;> simp [empty,ids]
  have lives : Lives ⟨false,false⟩ [] (outputs (machine config) include_raw
      (.new metadata_key extractor) chunks) (outline false chunks) :=
    outputs_lives injective include_raw chunks (s := .new metadata_key extractor) tracked foreign
  have nothing : (⟨false,false⟩ : Mode).keys ∪ toolKeys [] = ∅ := rfl
  have sound := lives.sound
  rw [nothing] at sound
  have onceTools := lives.once
  rw [nil_append] at onceTools
  rw [check_ok_iff,drive_stream,drive_eq,obeys_iff_fresh sound warnings,lives.started,
    and_iff_left onceTools,begun_nodup_iff]
  simp [ResumesFrom,Resumes]

end

def deltaChunk (delta : ChatMessage) (field text : String) : ParseResult ChatResponse :=
  .Ok ⟨none,none,none,some [⟨some delta,none⟩],none,none⟩
    (.object [("choices",.array [.object [("delta",.object [(field,.string text)])]])])

def textChunk (text : String) : ParseResult ChatResponse := deltaChunk ⟨some (.Text text),none,none,none⟩ "content" text

def reasoningChunk (text : String) : ParseResult ChatResponse :=
  deltaChunk ⟨none,some text,none,none⟩ "reasoning_content" text

def stopChunk : ParseResult ChatResponse :=
  .Ok ⟨none,none,none,some [⟨none,some "stop"⟩],none,none⟩
    (.object [("choices",.array [.object [("finish_reason",.string "stop")]])])

def letters (n : Nat) : String := String.ofList (List.replicate n 'a')

def plainConfig : Config Unit where
  generate_id := letters
  error_structure := ⟨fun body => ((body.get "error").bind (·.get "message")).bind JsonValue.as_str,fun _ => ""⟩
  convert_usage := none
  process_chunk s _ := s
  build_metadata _ := none

theorem letters_injective : Function.Injective letters := by
  intro n k same
  have lists := String.ofList_injective same
  simpa using congrArg List.length lists

theorem chat_stream_obeys_of_one_text :
    StreamContractChecker.check (drive_stream (.StreamStart []) [reasoningChunk "hm",textChunk "a",stopChunk]
      (ChatStreamState.machine plainConfig) (.new "openai" none) false) = .ok () := by
  refine (chat_stream_obeys_iff letters_injective false _ ?_ [] "openai" none).mpr ?_
  · intro id carried
    cases carried
  · decide

/-- Text after reasoning after text: the text part starts a second time. -/
theorem text_resumed_breaks_contract :
    StreamContractChecker.check (drive_stream (.StreamStart [])
      [textChunk "a",reasoningChunk "hm",textChunk "b",stopChunk]
      (ChatStreamState.machine plainConfig) (.new "openai" none) false) ≠ .ok () := by
  decide

end Ferrin.OpenAiCompatible
