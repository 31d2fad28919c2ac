import Ferrin.Anthropic.MessageStream

/-!
When the stream of a message obeys the contract. The events of a message open
and close blocks; their parts are properly bracketed wherever the events stop.
But only `message_stop` and an error event end the stream.
-/
namespace Ferrin.Anthropic
open Ferrin.Assoc Ferrin.Stream Ferrin.Brackets List AnthropicStreamState Option Block StreamPart
open StreamContractChecker (check isStreamStart)
open AnthropicStreamState (deferred handle)

/-! ### Well-formed events -/

inductive Stage where
  | Waiting
  | Streaming
  | Stopped
  deriving DecidableEq

/-- How far the events of a message have come: the open blocks, each with
    whether its input has begun, and the indices and tool ids used. -/
structure Progress where
  stage : Stage
  opened : List (Nat × ContentBlock × Bool)
  indices : List Nat
  ids : List String

def Progress.start : Progress := ⟨.Waiting,[],[],[]⟩

def ContentBlock.callId : ContentBlock → Option String
  | .ToolUse id .. | .ServerToolUse id .. | .McpToolUse id .. => some id
  | _ => none

/-- The ids of the calls that `message_start` carries. -/
def MessageStart.callIds (message : MessageStart) : List String :=
  (message.content.getD []).filterMap ContentBlock.callId

def Delta.fits : Delta → ContentBlock → Bool
  | .Text _, .Text .. | .Citations _, .Text .. => true
  | .Thinking _, .Thinking .. | .Signature _, .Thinking .. => true
  | .Compaction _, .Compaction _ => true
  | .InputJson _, .ToolUse .. | .InputJson _, .ServerToolUse .. | .InputJson _, .McpToolUse .. => true
  | .Unknown, _ => true
  | _, _ => false

/-- The fragments of an input spell an object: the first one begins with its brace. -/
def Delta.begins : Delta → Bool
  | .InputJson partial_json => partial_json ≠ ""
  | _ => false

def Delta.opensObject : Delta → Bool
  | .InputJson partial_json => partial_json.toList.head? = some '\x7b'
  | _ => false

/-- The next event of a well-formed sequence. An error may strike at any time. -/
def Progress.next (p : Progress) : AnthropicChunk → Option Progress
  | .Error _ => some p
  | .Ping | .Unknown => if p.stage = .Stopped then none else some p
  | .MessageStart message =>
    if p.stage = .Waiting ∧ message.callIds.Nodup then
      some { p with stage := .Streaming,ids := p.ids ++ message.callIds }
    else none
  | .ContentBlockStart index block =>
    if p.stage = .Streaming ∧ index ∉ p.indices ∧ ∀ id ∈ block.callId.toList, id ∉ p.ids then
      some { p with
        opened := put p.opened index (block,false)
        indices := p.indices ++ [index]
        ids := p.ids ++ block.callId.toList }
    else none
  | .ContentBlockDelta index delta =>
    match p.opened.lookup index with
    | some (block,begun) =>
      if p.stage = .Streaming ∧ delta.fits block ∧ (delta.begins → begun = false → delta.opensObject) then
        some { p with opened := put p.opened index (block,begun || delta.begins) }
      else none
    | none => none
  | .ContentBlockStop index =>
    if p.stage = .Streaming ∧ (p.opened.lookup index).isSome then some { p with opened := remove p.opened index }
    else none
  | .MessageDelta .. => if p.stage = .Streaming ∧ p.opened = [] then some p else none
  | .MessageStop => if p.stage = .Streaming ∧ p.opened = [] then some { p with stage := .Stopped } else none

def Progress.run (p : Progress) : List AnthropicChunk → Option Progress
  | [] => some p
  | chunk :: rest => (p.next chunk).bind (·.run rest)

theorem Progress.run_append (before after : List AnthropicChunk) : ∀ p : Progress,
    p.run (before ++ after) = (p.run before).bind (·.run after) := by
  induction before with
  | nil => intro p; rfl
  | cons _ _ ih =>
    intro p
    simp only [cons_append,Progress.run,ih,bind_assoc]

/-- A whole message: everything is closed, and the message is stopped. -/
def WellFormed (events : List AnthropicChunk) : Prop := ∃ p, Progress.start.run events = some p ∧ p.stage = .Stopped

def Block.key (index : Nat) : Block → PartKey
  | .Text _ => .text (part_id index)
  | .Reasoning _ => .reasoning (part_id index)
  | .ToolCall block => .toolInput block.tool_call_id

/-- What the machine holds for an open block, where `flagged` tells that tool
    input goes to the text of the answer. -/
def Held (json flagged begun : Bool) : ContentBlock → Option Block → Prop
  | .Text .., held => json = false → ∃ citations, held = some (.Text citations)
  | .Thinking .., held => held = some (.Reasoning true)
  | .Compaction .., held => ∃ citations, held = some (.Text citations)
  | .ToolUse .., held | .ServerToolUse .., held | .McpToolUse .., held =>
    ∀ call, held = some (.ToolCall call) → call.first_delta = true → begun = true → flagged = true
  | _, _ => True

section
variable {p p' p'' : Progress} {s s' : AnthropicStreamState} {o o' o'' : Finset PartKey}

structure Streams (p : Progress) (s : AnthropicStreamState) (o : Finset PartKey) : Prop where
  valid : s.invalid_sequence = false
  closed : p.stage = .Waiting → s.message_open = false ∧ p.ids = []
  keys : ∀ key, key ∈ o ↔ ∃ index block, s.blocks.lookup index = some block ∧ block.key index = key
  used : ∀ index block, s.blocks.lookup index = some block → index ∈ p.indices
  ids : ∀ index call, s.blocks.lookup index = some (.ToolCall call) → call.tool_call_id ∈ p.ids
  apart : ∀ index call index' call', s.blocks.lookup index = some (.ToolCall call) →
    s.blocks.lookup index' = some (.ToolCall call') → call.tool_call_id = call'.tool_call_id → index = index'
  held : ∀ index block begun, p.opened.lookup index = some (block,begun) →
    Held s.mapper.uses_json_response_tool s.mapper.json_response_from_tool begun block (s.blocks.lookup index)
  gone : ∀ index, p.opened.lookup index = none → s.blocks.lookup index = none

theorem part_id_injective : Function.Injective part_id := toString_injective

theorem streams_start (mapper : OutputMapper) (custom_key : Option String) :
    Streams .start (.new mapper custom_key) ∅ := by
  constructor <;> simp [Progress.start,new]

variable {call : ToolCallBlock} {i j index : Nat} {b : Block} {parts : List StreamPart} {begun begun' ended : Bool}
  {block : ContentBlock} {part : StreamPart} {text : String}

theorem key_call (same : (Block.ToolCall call).key i = b.key j) :
    ∃ call', b = .ToolCall call' ∧ call.tool_call_id = call'.tool_call_id := by
  cases b with
  | ToolCall call' => exact ⟨call',rfl,PartKey.toolInput.inj same⟩
  | _ => simp [key] at same

theorem key_cases {b' : Block} (same : b.key i = b'.key j) :
    i = j ∨ ∃ call call', b = .ToolCall call ∧ b' = .ToolCall call' ∧ call.tool_call_id = call'.tool_call_id := by
  cases b with
  | ToolCall call =>
    obtain ⟨call',here,ids⟩ := key_call same
    exact .inr ⟨call,call',rfl,here,ids⟩
  | Text => cases b' <;> first | exact .inl (part_id_injective (PartKey.text.inj same)) | simp [key] at same
  | Reasoning =>
    cases b' <;> first | exact .inl (part_id_injective (PartKey.reasoning.inj same)) | simp [key] at same

structure Body (p : Progress) (o : Finset PartKey) (parts : List StreamPart) (p' : Progress) (o' : Finset PartKey) :
    Prop where
  proper : Proper o parts o'
  indices : p.indices ⊆ p'.indices
  ids : p.ids ⊆ p'.ids
  onceParts : (parts.filterMap partId).Nodup
  newParts : ∀ id ∈ parts.filterMap partId, ∃ index ∈ p'.indices, index ∉ p.indices ∧ id = part_id index
  onceTools : (parts.filterMap toolInputId).Nodup
  newTools : ∀ id ∈ parts.filterMap toolInputId, id ∈ p'.ids ∧ id ∉ p.ids

theorem Body.append {before after : List StreamPart} (first : Body p o before p' o') (second : Body p' o' after p'' o'') :
    Body p o (before ++ after) p'' o'' := by
  refine ⟨first.proper.append second.proper,List.Subset.trans first.indices second.indices,
    List.Subset.trans first.ids second.ids,?_,?_,?_,?_⟩
  · rw [filterMap_append,nodup_append]
    refine ⟨first.onceParts,second.onceParts,?_⟩
    intro early here late there same
    obtain ⟨index,known,-,rfl⟩ := first.newParts early here
    obtain ⟨_,-,fresh,rfl⟩ := second.newParts late there
    exact fresh (part_id_injective same ▸ known)
  · intro id here
    rw [filterMap_append,mem_append] at here
    rcases here with early | late
    · obtain ⟨index,known,fresh,same⟩ := first.newParts id early
      exact ⟨index,second.indices known,fresh,same⟩
    · obtain ⟨index,known,fresh,same⟩ := second.newParts id late
      exact ⟨index,known,fun old => fresh (first.indices old),same⟩
  · rw [filterMap_append,nodup_append]
    refine ⟨first.onceTools,second.onceTools,?_⟩
    intro early here late there same
    exact (second.newTools late there).2 (same ▸ (first.newTools early here).1)
  · intro id here
    rw [filterMap_append,mem_append] at here
    rcases here with early | late
    · exact ⟨second.ids (first.newTools id early).1,(first.newTools id early).2⟩
    · exact ⟨(second.newTools id late).1,fun old => (second.newTools id late).2 (first.ids old)⟩

theorem Body.plain (proper : Proper o parts o') (indices : p.indices ⊆ p'.indices)
    (ids : p.ids ⊆ p'.ids) (noParts : parts.filterMap partId = []) (noTools : parts.filterMap toolInputId = []) :
    Body p o parts p' o' := by
  constructor <;> simp_all

def Steps (p p' : Progress) (o : Finset PartKey) (result : Option (AnthropicStreamState × List StreamPart)) : Prop :=
  ∃ s' parts o', result = some (s',parts) ∧ Body p o parts p' o' ∧ Streams p' s' o'

theorem Held.mono {json flagged flagged' : Bool} {held : Option Block}
    (holds : Held json flagged begun block held) (kept : flagged = true → flagged' = true) :
    Held json flagged' begun block held := by
  cases block <;> first | exact holds | exact fun call here first_ started => kept (holds call here first_ started)

/-- Only the fields that the invariant reads matter, and the flag is never taken back. -/
structure Alike (s s' : AnthropicStreamState) : Prop where
  valid : s'.invalid_sequence = s.invalid_sequence
  json : s'.mapper.uses_json_response_tool = s.mapper.uses_json_response_tool
  flagged : s.mapper.json_response_from_tool = true → s'.mapper.json_response_from_tool = true

theorem alike_self (s : AnthropicStreamState) : Alike s s := ⟨rfl,rfl,id⟩

theorem Streams.opens (streams : Streams p s o) (alike : Alike s s')
    (fresh : index ∉ p.indices) (freshId : ∀ id ∈ block.callId.toList, id ∉ p.ids) (stage : p.stage = .Streaming)
    (held : Option Block) (lookup : ∀ j, s'.blocks.lookup j = if j = index then held else s.blocks.lookup j)
    (called : ∀ call, held = some (.ToolCall call) → block.callId = some call.tool_call_id)
    (holds : Held s'.mapper.uses_json_response_tool s'.mapper.json_response_from_tool false block held)
    (keys : ∀ key, key ∈ o' ↔ (∃ b, held = some b ∧ b.key index = key) ∨ key ∈ o) :
    Streams { p with
      opened := put p.opened index (block,false)
      indices := p.indices ++ [index]
      ids := p.ids ++ block.callId.toList } s' o' := by
  have absent : s.blocks.lookup index = none := by
    cases here : s.blocks.lookup index with
    | none => rfl
    | some b => exact absurd (streams.used index b here) fresh
  refine ⟨alike.valid.trans streams.valid,?_,?_,?_,?_,?_,?_,?_⟩
  · intro waiting
    rw [stage] at waiting
    cases waiting
  · intro key
    rw [keys,streams.keys]
    constructor
    · rintro (⟨b,here,same⟩ | ⟨j,b,there,same⟩)
      · exact ⟨index,b,by rw [lookup,if_pos rfl,here],same⟩
      · have other : j ≠ index := by
          rintro rfl
          rw [absent] at there
          cases there
        exact ⟨j,b,by rw [lookup,if_neg other,there],same⟩
    · rintro ⟨j,b,there,same⟩
      rw [lookup] at there
      split_ifs at there with here
      · subst here
        exact .inl ⟨b,there,same⟩
      · exact .inr ⟨j,b,there,same⟩
  · intro j b there
    rw [lookup] at there
    rw [mem_append,mem_singleton]
    split_ifs at there with here
    · exact .inr here
    · exact .inl (streams.used j b there)
  · intro j call there
    rw [lookup] at there
    rw [mem_append]
    split_ifs at there with here
    · exact .inr (by simp [called call there])
    · exact .inl (streams.ids j call there)
  · have clash : ∀ call j call', held = some (.ToolCall call) → s.blocks.lookup j = some (.ToolCall call') →
        call.tool_call_id ≠ call'.tool_call_id := by
      intro call j call' here there same
      refine freshId call.tool_call_id (by simp [called call here]) ?_
      rw [same]
      exact streams.ids j call' there
    intro i call j call' there there' same
    rw [lookup] at there there'
    split_ifs at there there' with here here'
    · rw [here,here']
    · exact absurd same (clash call j call' there there')
    · exact absurd same.symm (clash call' i call there' there)
    · exact streams.apart i call j call' there there' same
  · intro j block' begun there
    rw [lookup_put] at there
    rw [lookup]
    split_ifs at there ⊢ with here
    · cases there
      exact holds
    · rw [alike.json]
      exact (streams.held j block' begun there).mono alike.flagged
  · intro j there
    rw [lookup_put] at there
    split_ifs at there with here
    rw [lookup,if_neg here]
    exact streams.gone j there

theorem Streams.updates (streams : Streams p s o) (alike : Alike s s')
    (opened : p.opened.lookup index = some (block,begun)) (stage : p.stage = .Streaming)
    (held : Option Block) (lookup : ∀ j, s'.blocks.lookup j = if j = index then held else s.blocks.lookup j)
    (key : held.map (·.key index) = (s.blocks.lookup index).map (·.key index))
    (holds : Held s'.mapper.uses_json_response_tool s'.mapper.json_response_from_tool begun' block held) :
    Streams { p with opened := put p.opened index (block,begun') } s' o := by
  have old : ∀ j b, s'.blocks.lookup j = some b → ∃ b', s.blocks.lookup j = some b' ∧ b.key j = b'.key j := by
    intro j b there
    rw [lookup] at there
    split_ifs at there with here
    · subst here
      rw [there,map_some] at key
      obtain ⟨b',found,same⟩ := Option.map_eq_some_iff.mp key.symm
      exact ⟨b',found,same.symm⟩
    · exact ⟨b,there,rfl⟩
  have oldCall : ∀ j call, s'.blocks.lookup j = some (.ToolCall call) →
      ∃ call', s.blocks.lookup j = some (.ToolCall call') ∧ call.tool_call_id = call'.tool_call_id := by
    intro j call there
    obtain ⟨b',found,same⟩ := old j _ there
    obtain ⟨call',rfl,ids⟩ := key_call same
    exact ⟨call',found,ids⟩
  refine ⟨alike.valid.trans streams.valid,?_,?_,?_,?_,?_,?_,?_⟩
  · intro waiting
    rw [stage] at waiting
    cases waiting
  · intro k
    rw [streams.keys]
    constructor
    · rintro ⟨j,b,there,same⟩
      by_cases here : j = index
      · subst here
        rw [there,map_some] at key
        obtain ⟨b',found,same'⟩ := Option.map_eq_some_iff.mp key
        exact ⟨j,b',by rw [lookup,if_pos rfl,found],same'.trans same⟩
      · exact ⟨j,b,by rw [lookup,if_neg here,there],same⟩
    · rintro ⟨j,b,there,same⟩
      obtain ⟨b',found,same'⟩ := old j b there
      exact ⟨j,b',found,same'.symm.trans same⟩
  · intro j b there
    obtain ⟨b',found,-⟩ := old j b there
    exact streams.used j b' found
  · intro j call there
    obtain ⟨call',found,same⟩ := oldCall j call there
    rw [same]
    exact streams.ids j call' found
  · intro i call j call' there there' same
    obtain ⟨callI,foundI,sameI⟩ := oldCall i call there
    obtain ⟨callJ,foundJ,sameJ⟩ := oldCall j call' there'
    exact streams.apart i callI j callJ foundI foundJ (by rw [← sameI,← sameJ,same])
  · intro j block' begun'' there
    rw [lookup_put] at there
    rw [lookup]
    split_ifs at there ⊢ with here
    · cases there
      exact holds
    · rw [alike.json]
      exact (streams.held j block' begun'' there).mono alike.flagged
  · intro j there
    rw [lookup_put] at there
    split_ifs at there with here
    rw [lookup,if_neg here]
    exact streams.gone j there

theorem Streams.stops (streams : Streams p s o) (stage : p.stage = .Streaming)
    (held : s.blocks.lookup index = some b) :
    Streams { p with opened := remove p.opened index } { s with blocks := remove s.blocks index }
      (o.erase (b.key index)) := by
  have unique : ∀ j b', s.blocks.lookup j = some b' → b'.key j = b.key index → j = index := by
    intro j b' there same
    rcases key_cases same with here | ⟨call',call,rfl,rfl,ids⟩
    · exact here
    · exact streams.apart j call' index call there held ids
  have kept : ∀ j b', (remove s.blocks index).lookup j = some b' → j ≠ index ∧ s.blocks.lookup j = some b' := by
    intro j b' there
    rw [lookup_remove] at there
    split_ifs at there with here
    exact ⟨here,there⟩
  refine ⟨streams.valid,?_,?_,?_,?_,?_,?_,?_⟩
  · intro waiting
    rw [stage] at waiting
    cases waiting
  · intro key
    rw [Finset.mem_erase,streams.keys]
    constructor
    · rintro ⟨other,j,b',there,rfl⟩
      have differs : j ≠ index := by
        rintro rfl
        rw [held] at there
        cases there
        exact other rfl
      exact ⟨j,b',by rw [lookup_remove,if_neg differs,there],rfl⟩
    · rintro ⟨j,b',there,rfl⟩
      obtain ⟨differs,found⟩ := kept j b' there
      exact ⟨fun same => differs (unique j b' found same),j,b',found,rfl⟩
  · exact fun j b' there => streams.used j b' (kept j b' there).2
  · exact fun j call there => streams.ids j call (kept j _ there).2
  · exact fun i call j call' there there' => streams.apart i call j call' (kept i _ there).2 (kept j _ there').2
  · intro j block begun there
    rw [lookup_remove] at there
    split_ifs at there with here
    rw [lookup_remove,if_neg here]
    exact streams.held j block begun there
  · intro j there
    rw [lookup_remove] at there ⊢
    split_ifs at there ⊢ with here
    · rfl
    · exact streams.gone j there

theorem Body.starts (streams : Streams p s o) (b : Block)
    (fresh : index ∉ p.indices) (freshId : ∀ id ∈ block.callId.toList, id ∉ p.ids)
    (called : ∀ call, b = .ToolCall call → block.callId = some call.tool_call_id)
    (marked : mark part = some (.opens (b.key index))) :
    Body p o [part] { p with
      opened := put p.opened index (block,false)
      indices := p.indices ++ [index]
      ids := p.ids ++ block.callId.toList } (insert (b.key index) o) := by
  have closed : b.key index ∉ o := by
    rw [streams.keys]
    rintro ⟨j,b',there,same⟩
    rcases key_cases same with rfl | ⟨call',call,rfl,rfl,ids⟩
    · exact fresh (streams.used j b' there)
    · exact freshId call.tool_call_id (by simp [called call rfl]) (ids ▸ streams.ids j call' there)
  obtain ⟨inner,name,toolName⟩ := opens_names marked
  have proper : Proper o [part] (insert (b.key index) o) := by
    refine ⟨by simpa using inner,?_⟩
    rw [marks,filterMap_cons,marked]
    exact run_opens closed []
  have parts : [part].filterMap partId = (partId part).toList := by simp [filterMap_cons]; cases partId part <;> rfl
  have tools : [part].filterMap toolInputId = (toolInputId part).toList := by
    simp [filterMap_cons]; cases toolInputId part <;> rfl
  refine ⟨proper,subset_append_left _ _,subset_append_left _ _,?_,?_,?_,?_⟩
  · rw [parts,name]
    cases b <;> simp [key]
  · rw [parts,name]
    cases b <;> simp [key,fresh]
  · rw [tools,toolName]
    cases b <;> simp [key]
  · rw [tools,toolName]
    cases b with
    | ToolCall call =>
      have id := called call rfl
      simpa [id,key] using freshId call.tool_call_id (by simp [id])
    | _ => simp [key]

def Quiet (parts : List StreamPart) : Prop := ∀ part ∈ parts, Inner part ∧ mark part = none

theorem Quiet.proper (quiet : Quiet parts) (o : Finset PartKey) : Proper o parts o := by
  have unmarked : marks parts = [] := List.filterMap_eq_nil_iff.mpr fun part here => (quiet part here).2
  exact ⟨fun part here => (quiet part here).1,by rw [unmarked]; rfl⟩

theorem Quiet.names (quiet : Quiet parts) : parts.filterMap partId = [] ∧ parts.filterMap toolInputId = [] := by
  constructor <;> refine List.filterMap_eq_nil_iff.mpr fun part here => ?_
  all_goals
    have unmarked := (quiet part here).2
    cases part <;> first | rfl | cases unmarked

theorem Quiet.body (quiet : Quiet parts) (indices : p.indices ⊆ p'.indices)
    (ids : p.ids ⊆ p'.ids) : Body p o parts p' o :=
  .plain (quiet.proper o) indices ids quiet.names.1 quiet.names.2

theorem quiet_nil : Quiet [] := by simp [Quiet]

theorem steps_skip (streams : Streams p s o) (alike : Alike s s')
    (fresh : index ∉ p.indices) (freshId : ∀ id ∈ block.callId.toList, id ∉ p.ids)
    (stage : p.stage = .Streaming) (blocks : s'.blocks = s.blocks) (quiet : Quiet parts)
    (holds : Held s'.mapper.uses_json_response_tool s'.mapper.json_response_from_tool false block none) :
    Steps p { p with
      opened := put p.opened index (block,false)
      indices := p.indices ++ [index]
      ids := p.ids ++ block.callId.toList } o (some (s',parts)) := by
  have absent : s.blocks.lookup index = none := by
    cases here : s.blocks.lookup index with
    | none => rfl
    | some b => exact absurd (streams.used index b here) fresh
  refine ⟨s',parts,o,rfl,quiet.body (subset_append_left _ _) (subset_append_left _ _),?_⟩
  refine streams.opens alike fresh freshId stage none ?_ ?_ holds ?_
  · intro j
    rw [blocks]
    split_ifs with here
    · rw [here,absent]
    · rfl
  · intro call impossible
    cases impossible
  · simp

theorem steps_open (streams : Streams p s o) (alike : Alike s s')
    (b : Block) (fresh : index ∉ p.indices) (freshId : ∀ id ∈ block.callId.toList, id ∉ p.ids)
    (stage : p.stage = .Streaming) (blocks : s'.blocks = put s.blocks index b)
    (called : ∀ call, b = .ToolCall call → block.callId = some call.tool_call_id)
    (marked : mark part = some (.opens (b.key index)))
    (holds : Held s'.mapper.uses_json_response_tool s'.mapper.json_response_from_tool false block (some b)) :
    Steps p { p with
      opened := put p.opened index (block,false)
      indices := p.indices ++ [index]
      ids := p.ids ++ block.callId.toList } o (some (s',[part])) := by
  refine ⟨s',[part],_,rfl,.starts streams b fresh freshId called marked,?_⟩
  refine streams.opens alike fresh freshId stage (some b) ?_ ?_ holds ?_
  · intro j
    rw [blocks,lookup_put]
  · intro call here
    exact called call (some.inj here)
  · intro key
    simp [eq_comm]

theorem content_quiet (content : List Content) : Quiet (content_to_parts content) := by
  intro part here
  obtain ⟨piece,-,mapped⟩ := List.mem_filterMap.mp here
  cases piece <;> simp only [reduceCtorEq,some.injEq] at mapped <;> cases mapped
  all_goals exact ⟨⟨rfl,rfl⟩,rfl⟩

variable (config : Config)

theorem block_start_steps (streams : Streams p s o)
    (accepted : p.next (.ContentBlockStart index block) = some p') :
    Steps p p' o (some (s.block_start config index block)) := by
  obtain ⟨⟨stage,fresh,freshId⟩,result⟩ := Option.ite_none_right_eq_some.mp accepted
  obtain rfl := some.inj result
  unfold block_start
  cases block with
  | Text =>
    cases json : s.mapper.uses_json_response_tool with
    | true =>
      simp only [if_true]
      exact steps_skip streams (alike_self s) fresh freshId stage rfl quiet_nil (by simp [Held,json])
    | false =>
      simp only [Bool.false_eq_true,if_false]
      refine steps_open streams ?_ (.Text []) fresh freshId stage ?_ ?_ ?_ ?_
      exacts [⟨rfl,rfl,id⟩,rfl,by simp,rfl,(by simp [Held])]
  | Thinking =>
    dsimp only
    refine steps_open streams ?_ (.Reasoning true) fresh freshId stage ?_ ?_ ?_ ?_
    exacts [⟨rfl,rfl,id⟩,rfl,by simp,rfl,rfl]
  | RedactedThinking =>
    dsimp only
    refine steps_open streams ?_ (.Reasoning false) fresh freshId stage ?_ ?_ ?_ ?_
    exacts [⟨rfl,rfl,id⟩,rfl,by simp,rfl,trivial]
  | Compaction =>
    dsimp only
    refine steps_open streams ?_ (.Text []) fresh freshId stage ?_ ?_ ?_ ?_
    exacts [⟨rfl,rfl,id⟩,rfl,by simp,rfl,⟨[],rfl⟩]
  | ToolUse =>
    dsimp only
    split_ifs with text
    · refine steps_open streams ?_ (.Text []) fresh freshId stage ?_ ?_ ?_ ?_
      exacts [⟨rfl,rfl,fun _ => rfl⟩,rfl,by simp,rfl,(by simp [Held])]
    · refine steps_open streams ?_ (.ToolCall _) fresh freshId stage rfl ?_ rfl ?_
      · exact ⟨rfl,rfl,fun flagged => flagged⟩
      · rintro call ⟨⟩
        rfl
      · simp [Held]
  | ServerToolUse _ name input =>
    dsimp only
    cases serverTool config name input with
    | none => exact steps_skip streams (alike_self s) fresh freshId stage rfl quiet_nil (by simp [Held])
    | some tool =>
      obtain ⟨_,_,_⟩ := tool
      dsimp only
      refine steps_open streams ?_ (.ToolCall _) fresh freshId stage rfl ?_ rfl ?_
      · refine ⟨rfl,?_,?_⟩ <;> dsimp only [open_block] <;> split_ifs
        all_goals first | rfl | exact fun flagged => flagged
      · rintro _ ⟨⟩
        rfl
      · simp [Held]
  | McpToolUse =>
    dsimp only
    refine steps_skip streams ?_ fresh freshId stage rfl ?_ (by simp [Held])
    · exact ⟨rfl,rfl,fun flagged => flagged⟩
    · simp [Quiet,Stream.Inner,isTerminal,isStreamStart,mark]
  | Fallback => exact steps_skip streams (alike_self s) fresh freshId stage rfl quiet_nil trivial
  | Unknown => exact steps_skip streams (alike_self s) fresh freshId stage rfl quiet_nil trivial
  | _ =>
    dsimp only
    refine steps_skip streams ?_ fresh freshId stage rfl (content_quiet _) trivial
    exact ⟨rfl,(map_result_block_alike config s.mapper _).1,(map_result_block_alike config s.mapper _).2.trans⟩

theorem within_proper {key : PartKey} (marked : mark part = some (.within key)) (isOpen : key ∈ o) :
    Proper o [part] o ∧ [part].filterMap partId = [] ∧ [part].filterMap toolInputId = [] := by
  have names : Inner part ∧ partId part = none ∧ toolInputId part = none := by
    cases part <;> first | exact ⟨⟨rfl,rfl⟩,rfl,rfl⟩ | cases marked
  refine ⟨⟨by simpa using names.1,?_⟩,?_,?_⟩
  · rw [marks,filterMap_cons,marked]
    exact run_within isOpen []
  · rw [filterMap_cons,names.2.1]
    rfl
  · rw [filterMap_cons,names.2.2]
    rfl

theorem Streams.isOpen (streams : Streams p s o) (held : s.blocks.lookup index = some b) :
    b.key index ∈ o := (streams.keys _).mpr ⟨index,b,held,rfl⟩

theorem steps_fill (streams : Streams p s o) (alike : Alike s s')
    (opened : p.opened.lookup index = some (block,begun))
    (stage : p.stage = .Streaming) (blocks : s'.blocks = s.blocks)
    (proper : Proper o parts o ∧ parts.filterMap partId = [] ∧ parts.filterMap toolInputId = [])
    (holds : Held s'.mapper.uses_json_response_tool s'.mapper.json_response_from_tool begun' block
      (s.blocks.lookup index)) :
    Steps p { p with opened := put p.opened index (block,begun') } o (some (s',parts)) := by
  obtain ⟨proper,noParts,noTools⟩ := proper
  refine ⟨s',parts,o,rfl,.plain proper (List.Subset.refl _) (List.Subset.refl _) noParts noTools,?_⟩
  refine streams.updates alike opened stage (s.blocks.lookup index) ?_ rfl holds
  intro j
  rw [blocks]
  split_ifs with here
  · rw [here]
  · rfl

theorem Quiet.fills (quiet : Quiet parts) :
    Proper o parts o ∧ parts.filterMap partId = [] ∧ parts.filterMap toolInputId = [] :=
  ⟨quiet.proper o,quiet.names⟩

theorem sliceOne_brace (brace : text.toList.head? = some '\x7b') : ∃ rest, sliceOne text = some rest := by
  unfold sliceOne
  cases letters : text.toList with
  | nil => simp [letters] at brace
  | cons c =>
    have same : c = '\x7b' := by simpa [letters] using brace
    exact ⟨_,by rw [same]; rfl⟩

section
variable (streams : Streams p s o)
include streams

theorem input_json_steps
    {partial_json : String} (opened : p.opened.lookup index = some (block,begun))
    (stage : p.stage = .Streaming) (held : s.blocks.lookup index = some (.ToolCall call))
    (sliced : call.first_delta = true → partial_json.toList.head? = some '\x7b')
    (holds : ∀ call : ToolCallBlock, call.first_delta = false → Held s.mapper.uses_json_response_tool
      s.mapper.json_response_from_tool true block (some (.ToolCall call))) :
    Steps p { p with opened := put p.opened index (block,true) } o (s.input_json index call partial_json) := by
  obtain ⟨delta,emitted⟩ : ∃ delta, s.input_json index call partial_json =
      some (s.open_block index (.ToolCall { call with input := call.input ++ delta,first_delta := false }),
        [.ToolInputDelta call.tool_call_id delta none]) := by
    unfold input_json
    cases first : call.first_delta with
    | false => exact ⟨partial_json,rfl⟩
    | true =>
      obtain ⟨rest,slice⟩ := sliceOne_brace (sliced first)
      cases call.provider_tool_input_type with
      | none => exact ⟨partial_json,rfl⟩
      | some input_type => exact ⟨"\x7b\"type\": \"" ++ input_type ++ "\"," ++ rest,by simp [slice]⟩
  rw [emitted]
  have marked : mark (.ToolInputDelta call.tool_call_id delta none) =
      some (.within ((Block.ToolCall call).key index)) := rfl
  obtain ⟨proper,noParts,noTools⟩ := within_proper marked (streams.isOpen held)
  refine ⟨_,_,o,rfl,.plain proper (List.Subset.refl _) (List.Subset.refl _) noParts noTools,?_⟩
  refine streams.updates ?_ opened stage
    (some (.ToolCall { call with input := call.input ++ delta,first_delta := false })) ?_ ?_ ?_
  · exact ⟨rfl,rfl,id⟩
  · exact lookup_put s.blocks index _
  · rw [held]
    rfl
  · exact holds _ rfl

theorem citations_steps
    {citations : Option (List JsonValue)} {citation : JsonValue}
    (opened : p.opened.lookup index = some (.Text text citations,begun)) (stage : p.stage = .Streaming) :
    Steps p { p with opened := put p.opened index (.Text text citations,begun') } o
      (s.block_delta config index (.Citations citation)) := by
  obtain ⟨uses,flag⟩ := citation_source_alike config s.mapper citation
  have quiet : Quiet ((s.mapper.citation_source config citation).2.map StreamPart.Source).toList := by
    cases (s.mapper.citation_source config citation).2 <;>
      simp [Quiet,Stream.Inner,isTerminal,isStreamStart,mark]
  have unchanged : Steps p { p with opened := put p.opened index (.Text text citations,begun') } o
      (some ({ s with mapper := (s.mapper.citation_source config citation).1 },
        ((s.mapper.citation_source config citation).2.map StreamPart.Source).toList)) := by
    refine steps_fill streams ?_ opened stage rfl quiet.fills ?_
    · exact ⟨rfl,uses,flag.trans⟩
    · exact fun json => streams.held index _ begun opened (uses.symm.trans json)
  unfold block_delta
  dsimp only
  split
  case h_1 noted found =>
    split_ifs with web
    · obtain ⟨proper,noParts,noTools⟩ := quiet.fills (o := o)
      refine ⟨_,_,o,rfl,.plain proper (List.Subset.refl _) (List.Subset.refl _) noParts noTools,?_⟩
      refine streams.updates ?_ opened stage (some (.Text (noted ++ [citation]))) ?_ ?_ ?_
      · exact ⟨rfl,uses,flag.trans⟩
      · exact lookup_put s.blocks index _
      · rw [found]
        rfl
      · exact fun _ => ⟨_,rfl⟩
    · exact unchanged
  case h_2 => exact unchanged

theorem block_delta_steps {delta : Delta}
    (accepted : p.next (.ContentBlockDelta index delta) = some p') : Steps p p' o (s.block_delta config index delta) := by
  unfold Progress.next at accepted
  cases opened : p.opened.lookup index with
  | none => simp [opened] at accepted
  | some entry =>
    obtain ⟨block,begun⟩ := entry
    simp only [opened] at accepted
    obtain ⟨⟨stage,fits,brace⟩,result⟩ := Option.ite_none_right_eq_some.mp accepted
    obtain rfl := some.inj result
    have held := streams.held index block begun opened
    have same : ∀ held' : Held s.mapper.uses_json_response_tool s.mapper.json_response_from_tool begun block
        (s.blocks.lookup index), delta.begins = false → Held s.mapper.uses_json_response_tool
          s.mapper.json_response_from_tool (begun || delta.begins) block (s.blocks.lookup index) := by
      intro held' unbegun
      rwa [unbegun,Bool.or_false]
    unfold block_delta
    cases delta with
    | Unknown => exact steps_fill streams (alike_self s) opened stage rfl quiet_nil.fills (same held rfl)
    | Text =>
      dsimp only
      cases json : s.mapper.uses_json_response_tool with
      | true => exact steps_fill streams (alike_self s) opened stage rfl quiet_nil.fills (same held rfl)
      | false =>
        cases block <;> cases fits
        obtain ⟨citations,found⟩ := held json
        exact steps_fill streams (alike_self s) opened stage rfl (within_proper rfl (streams.isOpen found)) (same held rfl)
    | Thinking =>
      cases block <;> cases fits
      exact steps_fill streams (alike_self s) opened stage rfl (within_proper rfl (streams.isOpen held)) (same held rfl)
    | Signature =>
      cases block <;> cases fits
      have found : s.blocks.lookup index = some (.Reasoning true) := held
      simp only [found]
      exact steps_fill streams (alike_self s) opened stage rfl (within_proper rfl (streams.isOpen held)) (same held rfl)
    | Compaction content =>
      cases block <;> cases fits
      obtain ⟨citations,found⟩ := held
      cases content with
      | none => exact steps_fill streams (alike_self s) opened stage rfl quiet_nil.fills (same ⟨citations,found⟩ rfl)
      | some =>
        exact steps_fill streams (alike_self s) opened stage rfl (within_proper rfl (streams.isOpen found))
          (same ⟨citations,found⟩ rfl)
    | InputJson partial_json =>
      dsimp only
      split_ifs with empty flagged
      · exact steps_fill streams (alike_self s) opened stage rfl quiet_nil.fills (same held (by simp [Delta.begins,empty]))
      · have open_ : ∀ held' : Option Block, Held s.mapper.uses_json_response_tool s.mapper.json_response_from_tool
            (begun || (Delta.InputJson partial_json).begins) block held' := by
          intro held'
          cases block <;> cases fits <;> simp [Held,flagged]
        split
        case h_1 citations found =>
          exact steps_fill streams (alike_self s) opened stage rfl (within_proper rfl (streams.isOpen found)) (open_ _)
        case h_2 => exact steps_fill streams (alike_self s) opened stage rfl quiet_nil.fills (open_ _)
      · have begins : (Delta.InputJson partial_json).begins = true := by simp [Delta.begins,empty]
        rw [begins,Bool.or_true]
        split
        case h_1 call found =>
          refine input_json_steps streams opened stage found ?_ ?_
          · intro first
            have unbegun : begun = false := by
              by_contra started
              rw [Bool.not_eq_false] at started
              have reset : Held s.mapper.uses_json_response_tool s.mapper.json_response_from_tool begun block
                  (some (.ToolCall call)) := found ▸ held
              cases block <;> cases fits <;> exact flagged (reset call rfl first started)
            simpa [Delta.opensObject] using brace begins unbegun
          · intro call' done
            cases block <;> cases fits <;> simp [Held,done]
        case h_2 other =>
          refine steps_fill streams (alike_self s) opened stage rfl quiet_nil.fills ?_
          cases block <;> cases fits <;> first | trivial | exact fun call found => absurd found (other call)
    | Citations =>
      cases block with
      | Text => exact citations_steps config streams opened stage
      | _ => cases fits

theorem block_stop_steps
    (accepted : p.next (.ContentBlockStop index) = some p') : Steps p p' o (some (s.block_stop config index)) := by
  obtain ⟨⟨stage,_⟩,result⟩ := Option.ite_none_right_eq_some.mp accepted
  obtain rfl := some.inj result
  unfold block_stop
  cases held : s.blocks.lookup index with
  | none =>
    refine ⟨s,[],o,rfl,quiet_nil.body (List.Subset.refl _) (List.Subset.refl _),?_⟩
    refine ⟨streams.valid,?_,streams.keys,streams.used,streams.ids,streams.apart,?_,?_⟩
    · intro waiting
      rw [stage] at waiting
      cases waiting
    · intro j block begun there
      rw [lookup_remove] at there
      split_ifs at there
      exact streams.held j block begun there
    · intro j there
      rw [lookup_remove] at there
      split_ifs at there with here
      · rw [here,held]
      · exact streams.gone j there
  | some b =>
    refine ⟨_,_,_,rfl,?_,streams.stops stage held⟩
    have isOpen := streams.isOpen held
    refine .plain ⟨?_,?_⟩ (List.Subset.refl _) (List.Subset.refl _) ?_ ?_
    · cases b <;> simp [Stream.Inner,isTerminal,isStreamStart]
    · cases b <;> exact run_closes isOpen []
    · cases b <;> rfl
    · cases b <;> rfl

theorem Streams.relax (alike : Alike s s') (blocks : s'.blocks = s.blocks) (ids : p.ids ⊆ p'.ids)
    (indices : p'.indices = p.indices) (opened : p'.opened = p.opened)
    (closed : p'.stage = .Waiting → s'.message_open = false ∧ p'.ids = []) : Streams p' s' o := by
  refine ⟨alike.valid.trans streams.valid,closed,?_,?_,?_,?_,?_,?_⟩
  · rw [blocks]
    exact streams.keys
  · rw [blocks,indices]
    exact streams.used
  · rw [blocks]
    exact fun index call there => ids (streams.ids index call there)
  · rw [blocks]
    exact streams.apart
  · rw [blocks,opened,alike.json]
    exact fun index block begun there => (streams.held index block begun there).mono alike.flagged
  · rw [blocks,opened]
    exact streams.gone

end

theorem deferred_proper (mapper : OutputMapper) (blocks : List ContentBlock)
    (once : (blocks.filterMap ContentBlock.callId).Nodup)
    (free : ∀ id ∈ blocks.filterMap ContentBlock.callId, .toolInput id ∉ o) :
    Proper o (blocks.flatMap (deferred config mapper)) o ∧
      (blocks.flatMap (deferred config mapper)).filterMap partId = [] ∧
      ((blocks.flatMap (deferred config mapper)).filterMap toolInputId).Sublist
        (blocks.filterMap ContentBlock.callId) := by
  induction blocks with
  | nil => exact ⟨.nil o,rfl,.slnil⟩
  | cons block rest ih =>
    have sub : (rest.filterMap ContentBlock.callId).Sublist ((block :: rest).filterMap ContentBlock.callId) :=
      (sublist_cons_self block rest).filterMap _
    obtain ⟨proper,noParts,tools⟩ := ih (once.sublist sub) fun id here => free id (sub.subset here)
    rw [flatMap_cons,filterMap_append,filterMap_append,noParts]
    cases block with
    | ToolUse id name input caller =>
      have closed : .toolInput id ∉ o := free id (by simp [ContentBlock.callId])
      have marked : run o (marks (deferred config mapper (.ToolUse id name input caller))) = some o := by
        show run o [.opens (.toolInput id),.within (.toolInput id),.closes (.toolInput id)] = some o
        have isOpen : .toolInput id ∈ insert (.toolInput id) o := Finset.mem_insert_self _ o
        rw [run_opens closed,run_within isOpen,run_closes isOpen,Finset.erase_insert closed,run_nil]
      have first : Proper o (deferred config mapper (.ToolUse id name input caller)) o := by
        refine ⟨?_,marked⟩
        simp [deferred,Stream.Inner,isTerminal,isStreamStart]
      exact ⟨first.append proper,rfl,tools.cons_cons id⟩
    | _ => exact ⟨proper,rfl,tools.trans sub⟩

theorem message_start_steps (streams : Streams p s o) {message : MessageStart} (raw : JsonValue)
    (accepted : p.next (.MessageStart message) = some p') : Steps p p' o (some (s.message_start config message raw)) := by
  obtain ⟨⟨stage,once⟩,result⟩ := Option.ite_none_right_eq_some.mp accepted
  obtain rfl := some.inj result
  obtain ⟨closed,unused⟩ := streams.closed stage
  have free : ∀ id ∈ message.callIds, .toolInput id ∉ o := by
    intro id _ isOpen
    obtain ⟨index,b,held,same⟩ := (streams.keys _).mp isOpen
    cases b with
    | ToolCall call =>
      have known := streams.ids index call held
      rw [unused] at known
      cases known
    | _ => simp [key] at same
  obtain ⟨proper,noParts,tools⟩ := deferred_proper config s.mapper (message.content.getD []) once free
  have quiet : Quiet [.ResponseMetadata message.id none message.model] := by
    simp [Quiet,Stream.Inner,isTerminal,isStreamStart,mark]
  have names : (.ResponseMetadata message.id none message.model ::
      (message.content.getD []).flatMap (deferred config s.mapper)).filterMap partId = [] := noParts
  simp only [message_start,closed,Bool.false_eq_true,if_false]
  refine ⟨_,_,o,rfl,⟨(quiet.proper o).append proper,List.Subset.refl _,subset_append_left _ _,?_,?_,?_,?_⟩,?_⟩
  · rw [names]
    exact nodup_nil
  · rw [names]
    intro id here
    cases here
  · exact once.sublist tools
  · intro id here
    have known : id ∈ message.callIds := tools.subset here
    rw [unused]
    exact ⟨mem_append_right _ known,not_mem_nil⟩
  · refine streams.relax ?_ rfl (subset_append_left _ _) rfl rfl ?_
    · exact ⟨rfl,rfl,id⟩
    · intro waiting
      cases waiting

/-- The events that make a terminal part. -/
def AnthropicChunk.isError : AnthropicChunk → Bool
  | .Error _ => true
  | _ => false

def endsOnce : List AnthropicChunk → Bool
  | [] => false
  | .Error _ :: _ => true
  | .MessageStop :: rest => !rest.any AnthropicChunk.isError
  | _ :: rest => endsOnce rest

theorem handle_chunk_steps (streams : Streams p s o) {chunk : AnthropicChunk} (raw : JsonValue)
    (accepted : p.next chunk = some p') (noError : chunk.isError = false) (goesOn : chunk ≠ .MessageStop) :
    Steps p p' o (s.handle_chunk config chunk raw) := by
  have still : p' = p → Steps p p' o (some (s,[])) := by
    rintro rfl
    exact ⟨s,[],o,rfl,quiet_nil.body (List.Subset.refl _) (List.Subset.refl _),streams⟩
  cases chunk with
  | Ping => exact still (some.inj (Option.ite_none_left_eq_some.mp accepted).2).symm
  | Unknown => exact still (some.inj (Option.ite_none_left_eq_some.mp accepted).2).symm
  | MessageStart => exact message_start_steps config streams raw accepted
  | ContentBlockStart => exact block_start_steps config streams accepted
  | ContentBlockDelta => exact block_delta_steps config streams accepted
  | ContentBlockStop => exact block_stop_steps config streams accepted
  | MessageDelta =>
    obtain ⟨⟨stage,-⟩,result⟩ := Option.ite_none_right_eq_some.mp accepted
    obtain rfl := some.inj result
    refine ⟨_,[],o,rfl,quiet_nil.body (List.Subset.refl _) (List.Subset.refl _),?_⟩
    refine streams.relax ?_ rfl (List.Subset.refl _) rfl rfl ?_
    · exact ⟨rfl,rfl,id⟩
    · intro waiting
      rw [stage] at waiting
      cases waiting
  | MessageStop => exact absurd rfl goesOn
  | Error => cases noError

variable (include_raw : Bool)

theorem lead_quiet (raw : JsonValue) : Quiet (if include_raw then [.Raw raw] else []) := by
  cases include_raw <;> simp [Quiet,Stream.Inner,isTerminal,isStreamStart,mark]

theorem lead_body (raw : JsonValue) : Body p o (if include_raw then [.Raw raw] else []) p o :=
  (lead_quiet include_raw raw).body (List.Subset.refl _) (List.Subset.refl _)

theorem handle_ok (streams : Streams p s o) (chunk : AnthropicChunk) (raw : JsonValue)
    (include_raw : Bool) : handle config s (.Ok chunk raw) include_raw =
      (s.handle_chunk config chunk raw).map fun next => (next.1,(if include_raw then [.Raw raw] else []) ++ next.2) := by
  unfold handle
  rw [streams.valid,if_neg Bool.false_ne_true]
  dsimp only
  cases s.handle_chunk config chunk raw <;> rfl

/-- What the output comes to, and whether it is one ending. -/
inductive Outcome (p : Progress) (o : Finset PartKey) : Bool → List StreamPart → Prop where
  | failed {body : List StreamPart} {p' : Progress} {o' : Finset PartKey} (error : StreamError)
      (after : List StreamPart) (sofar : Body p o body p' o') : Outcome p o true (body ++ .Error error :: after)
  | finished {body : List StreamPart} {p' : Progress} {reason : FinishReason} {usage : Usage}
      {metadata : Option ProviderMetadata} (sofar : Body p o body p' ∅) :
      Outcome p o true (body ++ [.Finish reason usage metadata])
  | unended {body : List StreamPart} {p' : Progress} {o' : Finset PartKey} (sofar : Body p o body p' o') :
      Outcome p o false body
  | endedTwice {body after : List StreamPart} {p' : Progress} {reason : FinishReason} {usage : Usage}
      {metadata : Option ProviderMetadata} (sofar : Body p o body p' ∅) (more : after ≠ []) :
      Outcome p o false (body ++ .Finish reason usage metadata :: after)

theorem Outcome.prepend {rest : List StreamPart} (first : Body p o parts p' o')
    (outcome : Outcome p' o' ended rest) : Outcome p o ended (parts ++ rest) := by
  cases outcome with
  | failed error after sofar =>
    rw [← append_assoc]
    exact .failed error after (first.append sofar)
  | finished sofar =>
    rw [← append_assoc]
    exact .finished (first.append sofar)
  | unended sofar => exact .unended (first.append sofar)
  | endedTwice sofar more =>
    rw [← append_assoc]
    exact .endedTwice (first.append sofar) more

/-- The events of a message with the JSON they were read from. -/
def parsed (chunks : List (AnthropicChunk × JsonValue)) : List (ParseResult AnthropicChunk) :=
  chunks.map fun (chunk,raw) => .Ok chunk raw

theorem stop_outcome (streams : Streams p s o) (include_raw : Bool) (raw : JsonValue)
    (rest : List (AnthropicChunk × JsonValue)) (accepted : p.next .MessageStop = some p')
    (later : ∃ q, p'.run (rest.map (·.1)) = some q) : Outcome p o (!(rest.map (·.1)).any AnthropicChunk.isError)
      (outputs (AnthropicStreamState.machine config) include_raw s (.Ok .MessageStop raw :: parsed rest)) := by
  obtain ⟨⟨_,noneOpen⟩,result⟩ := Option.ite_none_right_eq_some.mp accepted
  obtain rfl := some.inj result
  have closed : o = ∅ := by
    refine Finset.eq_empty_of_forall_notMem fun key isOpen => ?_
    obtain ⟨index,b,held,-⟩ := (streams.keys key).mp isOpen
    have gone := streams.gone index (by rw [noneOpen]; rfl)
    rw [held] at gone
    cases gone
  subst closed
  have stopped : handle config s (.Ok .MessageStop raw) include_raw =
      some (s.message_stop.1,(if include_raw then [.Raw raw] else []) ++ s.message_stop.2) :=
    handle_ok config streams .MessageStop raw include_raw
  have emitted : outputs (machine config) include_raw s (.Ok .MessageStop raw :: parsed rest) =
      ((if include_raw then [.Raw raw] else []) ++ s.message_stop.2) ++
        outputs (machine config) include_raw s.message_stop.1 (parsed rest) := by
    simp only [outputs,machine,stopped]
  rw [emitted,append_assoc]
  cases rest with
  | nil => exact .finished (lead_body include_raw raw)
  | cons entry =>
    obtain ⟨chunk,raw'⟩ := entry
    obtain ⟨q,ran⟩ := later
    cases chunk with
    | Error error =>
      have handled : handle config s.message_stop.1 (.Ok (.Error error) raw') include_raw =
          some (s.message_stop.1,(if include_raw then [.Raw raw'] else []) ++ [.Error (frame_error (.object error))]) := by
        unfold handle
        have valid : s.message_stop.1.invalid_sequence = false := streams.valid
        rw [valid]
        rfl
      refine .endedTwice (lead_body include_raw raw) ?_
      simp only [parsed,map_cons,outputs,machine,handled]
      simp
    | _ => simp [Progress.run,Progress.next,noneOpen] at ran

theorem outputs_outcome (chunks : List (AnthropicChunk × JsonValue)) :
    ∀ {p : Progress} {s : AnthropicStreamState} {o : Finset PartKey}, Streams p s o →
    (∃ q, p.run (chunks.map (·.1)) = some q) → Outcome p o (endsOnce (chunks.map (·.1)))
      (outputs (AnthropicStreamState.machine config) include_raw s (parsed chunks)) := by
  induction chunks with
  | nil =>
    intro p s o streams _
    exact .unended (quiet_nil.body (List.Subset.refl p.indices) (List.Subset.refl p.ids))
  | cons entry rest ih =>
    intro p s o streams accepted
    obtain ⟨chunk,raw⟩ := entry
    obtain ⟨q,ran⟩ := accepted
    obtain ⟨_,next,later⟩ := Option.bind_eq_some_iff.mp ran
    by_cases stop : chunk = .MessageStop
    · subst stop
      exact stop_outcome config streams include_raw raw rest next ⟨q,later⟩
    · cases failing : chunk.isError with
      | true =>
        cases chunk with
        | Error error =>
          have handled := handle_ok config streams (.Error error) raw include_raw
          have emitted : outputs (machine config) include_raw s
              (parsed ((.Error error,raw) :: rest)) = (if include_raw then [.Raw raw] else []) ++
                .Error (frame_error (.object error)) ::
                  outputs (machine config) include_raw s (parsed rest) := by
            simp only [parsed,map_cons,outputs,machine,handled]
            exact append_assoc _ _ _
          rw [emitted]
          exact .failed _ _ (lead_body include_raw raw)
        | _ => cases failing
      | false =>
        obtain ⟨s',parts,_,stepped,body,streams'⟩ := handle_chunk_steps config streams raw next failing stop
        have unended : endsOnce (((chunk,raw) :: rest).map (·.1)) = endsOnce (rest.map (·.1)) := by
          cases chunk <;> first | rfl | exact absurd rfl stop | cases failing
        have handled := handle_ok config streams chunk raw include_raw
        rw [stepped] at handled
        have emitted : outputs (machine config) include_raw s (parsed ((chunk,raw) :: rest)) =
            ((if include_raw then [.Raw raw] else []) ++ parts) ++
              outputs (machine config) include_raw s' (parsed rest) := by
          simp only [parsed,map_cons,outputs,machine,handled,map_some]
        rw [unended,emitted]
        exact .prepend ((lead_body include_raw raw).append body) (ih streams' ⟨q,later⟩)

theorem enqueue_ne_nil {o : OpenParts} (some_ : parts ≠ []) : (enqueue o parts).1 ≠ [] := by
  cases parts with
  | nil => exact absurd rfl some_
  | cons part => cases part <;> simp [enqueue]

theorem Outcome.obeys_iff (outcome : Outcome p ∅ ended parts)
    (warnings : List Warning) : Obeys (.StreamStart warnings :: (enqueue .empty parts).1) ↔ ended = true := by
  cases outcome with
  | failed error after sofar =>
    have alive : live _ = _ := live_inner (.Error error :: after) sofar.proper.inner
    rw [obeys_iff_fresh (.failed error after sofar.proper),alive]
    simp [live,sofar.onceParts,sofar.onceTools]
  | @finished body p' reason usage metadata sofar =>
    have alive : live _ = _ := live_inner [.Finish reason usage metadata] sofar.proper.inner
    have noId : (live [.Finish reason usage metadata]).filterMap partId = [] := rfl
    have noToolId : (live [.Finish reason usage metadata]).filterMap toolInputId = [] := rfl
    rw [obeys_iff_fresh (.finished sofar.proper),alive,filterMap_append,filterMap_append,noId,noToolId]
    simp [sofar.onceParts,sofar.onceTools]
  | unended sofar =>
    obtain ⟨later,-,queued⟩ := sofar.proper.enqueue [] holds_empty
    rw [append_nil] at queued
    rw [queued]
    refine ⟨fun obeys => ?_,fun impossible => by cases impossible⟩
    obtain ⟨part,here,terminal⟩ := obeys.has_terminal
    have ordinary := (sofar.proper.inner part (by simpa [enqueue] using here)).1
    rw [terminal] at ordinary
    cases ordinary
  | @endedTwice body after p' reason usage metadata sofar more =>
    obtain ⟨_,-,queued⟩ := sofar.proper.enqueue (.Finish reason usage metadata :: after) holds_empty
    rw [queued]
    refine ⟨fun obeys => ?_,fun impossible => by cases impossible⟩
    exact absurd (obeys.terminal_last rfl) (enqueue_ne_nil more)

end

/-- The stream of a message that is cut short anywhere obeys the contract
    exactly when its events end it once. -/
theorem message_stream_obeys_iff (config : Config) (mapper : OutputMapper) (custom_key : Option String)
    (warnings : List Warning) (include_raw : Bool) (events : List AnthropicChunk) (wellFormed : WellFormed events)
    (chunks : List (AnthropicChunk × JsonValue)) (cut : chunks.map (·.1) <+: events) :
    check (drive_stream (.StreamStart warnings) (parsed chunks)
      (AnthropicStreamState.machine config) (.new mapper custom_key) include_raw) = .ok () ↔
        endsOnce (chunks.map (·.1)) = true := by
  obtain ⟨last,ran,-⟩ := wellFormed
  obtain ⟨rest,rfl⟩ := cut
  rw [Progress.run_append] at ran
  obtain ⟨q,sofar,-⟩ := Option.bind_eq_some_iff.mp ran
  rw [check_ok_iff,drive_stream,drive_eq]
  exact (outputs_outcome config include_raw chunks (streams_start mapper custom_key) ⟨q,sofar⟩).obeys_iff warnings

def greeting : List AnthropicChunk := [
  .MessageStart ⟨some "msg_1",some "claude",.default,none,none,none,none⟩,
  .ContentBlockStart 0 (.Text "" none),
  .ContentBlockDelta 0 (.Text "Hi"),
  .ContentBlockStop 0,
  .MessageDelta ⟨some "end_turn",none,none,none⟩ .default none none,
  .MessageStop]

theorem greeting_wellFormed : WellFormed greeting := ⟨_,rfl,rfl⟩

def plainConfig : Config := ⟨fun _ => "\x7b\x7d",fun _ => some (.object []),fun n => toString n⟩

def plainMapper : OutputMapper := ⟨[],false,false,[],false,[],[],0⟩

def readFrom (events : List AnthropicChunk) : List (AnthropicChunk × JsonValue) := events.map fun chunk => (chunk,.null)

theorem greeting_obeys :
    check (drive_stream (.StreamStart []) (parsed (readFrom greeting))
      (AnthropicStreamState.machine plainConfig) (.new plainMapper none) false) = .ok () := by
  refine (message_stream_obeys_iff plainConfig plainMapper none [] false greeting greeting_wellFormed _ ?_).mpr rfl
  exact prefix_rfl

/-- Cut inside its text, the message leaves the text open and has no ending. -/
theorem cut_greeting_breaks_contract : WellFormed greeting ∧ greeting.take 3 <+: greeting ∧
    check (drive_stream (.StreamStart []) (parsed (readFrom (greeting.take 3)))
      (AnthropicStreamState.machine plainConfig) (.new plainMapper none) false) ≠ .ok () :=
  ⟨greeting_wellFormed, take_prefix 3 greeting,by decide⟩

end Ferrin.Anthropic
