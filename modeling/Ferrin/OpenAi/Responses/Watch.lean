import Ferrin.OpenAi.Responses.Stream

/-!
The events of one item in a stream with those of others between them. What the
stream keeps of the item's call, and what it emits for it, follows from the
item's own events (`item_parts_watch`).
-/
namespace Ferrin.OpenAi.Responses
open Ferrin.Stream Ferrin.Assoc List Option

namespace ResponsesStreamState
variable {s : ResponsesStreamState} {i j : Nat}

@[simp] theorem ongoing_with_call (call : OngoingToolCall) :
    (s.with_call j call).ongoing i = if i = j then some call else s.ongoing i := lookup_put ..

@[simp] theorem ongoing_without_call : (s.without_call j).ongoing i = if i = j then none else s.ongoing i :=
  lookup_remove ..

@[simp] theorem ongoing_called : s.called.ongoing i = s.ongoing i := rfl

@[simp] theorem ongoing_with_mapper (mapper : OutputMapper) : (s.with_mapper mapper).ongoing i = s.ongoing i := rfl

end ResponsesStreamState

def ResponsesChunk.target (chunk : ResponsesChunk) : Option Nat :=
  match chunk.chunk_kind with
  | .OutputItemAdded | .OutputItemDone => some (chunk.output_index.getD 0)
  | .FunctionCallArgumentsDelta | .CustomToolCallInputDelta | .ApplyPatchDiffDelta | .ApplyPatchDiffDone
  | .CodeInterpreterCodeDelta | .CodeInterpreterCodeDone => chunk.output_index
  | _ => none

/-! ### Events of other items -/

section
open ResponsesStreamState
variable {env : Environment} {s : ResponsesStreamState} {i j : Nat}

theorem item_added_other (other : i ≠ j) (item : OutputItem) : (s.item_added env item j).1.ongoing i = s.ongoing i := by
  unfold item_added
  dsimp only
  cases item.item_kind with
  | FunctionCall =>
    dsimp only
    split_ifs
    · rfl
    · exact (ongoing_with_call _).trans (if_neg other)
  | CustomToolCall => exact (ongoing_with_call _).trans (if_neg other)
  | WebSearchCall => exact (ongoing_with_call _).trans (if_neg other)
  | ComputerCall => exact (ongoing_with_call _).trans (if_neg other)
  | CodeInterpreterCall => exact (ongoing_with_call _).trans (if_neg other)
  | ApplyPatchCall =>
    dsimp only
    unfold apply_patch_added
    dsimp only
    split_ifs <;> exact (ongoing_with_call _).trans (if_neg other)
  | _ => rfl

theorem item_done_other (other : i ≠ j) (item : OutputItem) : (s.item_done env item j).1.ongoing i = s.ongoing i := by
  have gone : (s.without_call j).ongoing i = s.ongoing i := ongoing_without_call.trans (if_neg other)
  unfold item_done
  dsimp only
  cases item.item_kind with
  | Message => rfl
  | Reasoning => rfl
  | ImageGenerationCall => rfl
  | Compaction => rfl
  | ShellCallOutput => rfl
  | ProgramOutput => rfl
  | ToolSearchOutput => rfl
  | Other => rfl
  | FunctionCall =>
    dsimp only
    unfold function_call_done
    split
    · rfl
    · exact gone
  | ApplyPatchCall =>
    dsimp only
    unfold apply_patch_done
    dsimp only
    split
    · exact gone
    · split_ifs <;> exact gone
  | _ => exact gone

theorem call_of_index {chunk : ResponsesChunk} {call : OngoingToolCall} (found : s.call_of chunk = some (j,call)) :
    chunk.output_index = some j ∧ s.ongoing j = some call := by
  obtain ⟨_,here,known⟩ := Option.bind_eq_some_iff.mp found
  obtain ⟨_,known,same⟩ := Option.map_eq_some_iff.mp known
  cases same
  exact ⟨here,known⟩

theorem diff_delta_other {chunk : ResponsesChunk} (other : chunk.output_index ≠ some i) :
    (s.diff_delta env chunk).1.ongoing i = s.ongoing i := by
  unfold diff_delta
  split
  · next index call delta found _ =>
    have apart : i ≠ index := fun same => other (same ▸ (call_of_index found).1)
    split
    · exact (ongoing_with_call _).trans (if_neg apart)
    · rfl
  · rfl

theorem diff_done_other {chunk : ResponsesChunk} (other : chunk.output_index ≠ some i) :
    (s.diff_done env chunk).1.ongoing i = s.ongoing i := by
  unfold diff_done
  split
  · next index call found =>
    have apart : i ≠ index := fun same => other (same ▸ (call_of_index found).1)
    split
    · split_ifs
      · rfl
      · exact (ongoing_with_call _).trans (if_neg apart)
    · rfl
  · rfl

theorem handle_chunk_other {chunk : ResponsesChunk} (other : chunk.target ≠ some i) (raw : JsonValue) :
    (s.handle_chunk env chunk raw).1.ongoing i = s.ongoing i := by
  unfold handle_chunk
  dsimp only
  unfold ResponsesChunk.target at other
  cases kind : chunk.chunk_kind with
  | OutputItemAdded =>
    rw [kind] at other
    dsimp only
    split
    · exact item_added_other (fun same => other (congrArg some same.symm)) _
    · rfl
  | OutputItemDone =>
    rw [kind] at other
    dsimp only
    split
    · exact item_done_other (fun same => other (congrArg some same.symm)) _
    · rfl
  | ApplyPatchDiffDelta =>
    rw [kind] at other
    exact diff_delta_other other
  | ApplyPatchDiffDone =>
    rw [kind] at other
    exact diff_done_other other
  | ReasoningPartAdded =>
    dsimp only
    unfold reasoning_part_added
    dsimp only
    split_ifs
    · rfl
    · split <;> rfl
  | ReasoningPartDone =>
    dsimp only
    unfold reasoning_part_done
    dsimp only
    split
    · rfl
    · split_ifs <;> rfl
  | AnnotationAdded =>
    dsimp only
    unfold annotation_added
    split <;> rfl
  | Created => dsimp only; split <;> rfl
  | Completed => dsimp only; split <;> rfl
  | Incomplete => dsimp only; split <;> rfl
  | Failed => dsimp only; split <;> rfl
  | _ => rfl

end

inductive ItemEvent where
  | CodeAdded (item : OutputItem)
  | CodeDelta (delta : String)
  | CodeDone (code : Option JsonValue)
  | CodeItemDone (item : OutputItem)
  | PatchAdded (item : OutputItem)
  | DiffDelta (delta : String)
  | DiffDone (diff : Option String)
  | PatchItemDone (item : OutputItem)

structure Brings (i : Nat) (chunk : ResponsesChunk) (kind : ChunkKind) : Prop where
  kind : chunk.chunk_kind = kind
  index : chunk.output_index = some i

inductive Carries (i : Nat) (chunk : ResponsesChunk) : ItemEvent → Prop where
  | codeAdded {item : OutputItem} (brings : Brings i chunk .OutputItemAdded) (known : chunk.item = some item)
      (code : item.item_kind = .CodeInterpreterCall) : Carries i chunk (.CodeAdded item)
  | codeDelta {delta : String} (brings : Brings i chunk .CodeInterpreterCodeDelta)
      (text : chunk.get_str "delta" = some delta) : Carries i chunk (.CodeDelta delta)
  | codeDone (brings : Brings i chunk .CodeInterpreterCodeDone) : Carries i chunk (.CodeDone (chunk.get "code"))
  | codeItemDone {item : OutputItem} (brings : Brings i chunk .OutputItemDone) (known : chunk.item = some item)
      (code : item.item_kind = .CodeInterpreterCall) : Carries i chunk (.CodeItemDone item)
  | patchAdded {item : OutputItem} (brings : Brings i chunk .OutputItemAdded) (known : chunk.item = some item)
      (patch : item.item_kind = .ApplyPatchCall) : Carries i chunk (.PatchAdded item)
  | diffDelta {delta : String} (brings : Brings i chunk .ApplyPatchDiffDelta)
      (text : chunk.get_str "delta" = some delta) : Carries i chunk (.DiffDelta delta)
  | diffDone (brings : Brings i chunk .ApplyPatchDiffDone) : Carries i chunk (.DiffDone (chunk.get_str "diff"))
  | patchItemDone {item : OutputItem} (brings : Brings i chunk .OutputItemDone) (known : chunk.item = some item)
      (patch : item.item_kind = .ApplyPatchCall) : Carries i chunk (.PatchItemDone item)

def input_delta_of : StreamPart → Option (ToolCallId × String)
  | .ToolInputDelta id delta _ => some (id,delta)
  | _ => none

def call_input_of : StreamPart → Option (ToolCallId × String)
  | .ToolCall call => some (call.tool_call_id,call.input)
  | _ => none

structure Inputs where
  deltas : List (ToolCallId × String)
  calls : List (ToolCallId × String)

def Inputs.of (parts : List StreamPart) : Inputs := ⟨parts.filterMap input_delta_of,parts.filterMap call_input_of⟩

def Inputs.append (first second : Inputs) : Inputs := ⟨first.deltas ++ second.deltas,first.calls ++ second.calls⟩

theorem Inputs.of_append (first second : List StreamPart) : of (first ++ second) = (of first).append (of second) := by
  simp [of,append]

section
open ResponsesStreamState
variable (env : Environment)

def closing_inputs (id : String) (state : ApplyPatchState) (diff : String) : List (ToolCallId × String) :=
  (if state.has_diff then [] else [(id,escape_json_delta env diff)]) ++ [(id,"\"\x7d\x7d")]

def item_closing_inputs (call : OngoingToolCall) (operation : JsonValue) : List (ToolCallId × String) :=
  match call.apply_patch with
  | some state =>
    if state.end_emitted = false ∧ operation_text operation "type" ≠ "delete_file" then
      closing_inputs env call.tool_call_id state (operation_text operation "diff")
    else []
  | none => []

def watch (slot : Option OngoingToolCall) : ItemEvent → Option OngoingToolCall × Inputs
  | .CodeAdded item =>
    let container_id := (item.get_str "container_id").getD ""
    (some { OngoingToolCall.plain item.id_str with container_id := some container_id },
      ⟨[(item.id_str,code_opening env container_id)],[]⟩)
  | .CodeDelta delta => (slot,⟨slot.toList.map fun call => (call.tool_call_id,escape_json_delta env delta),[]⟩)
  | .CodeDone code => (slot,⟨slot.toList.map fun call => (call.tool_call_id,"\"\x7d"),slot.toList.map fun call =>
      (call.tool_call_id,env.json_text (OutputMapper.code_input code (call.container_id.map .string)))⟩)
  | .CodeItemDone item => (none,⟨[],if slot.isNone then
      [(item.id_str,env.json_text (OutputMapper.code_input (item.get "code") (item.get "container_id")))] else []⟩)
  | .PatchAdded item =>
    let call_id := (item.get_str "call_id").getD ""
    let operation := or_null (item.get "operation")
    let op_type := operation_text operation "type"
    let is_delete : Bool := op_type = "delete_file"
    (some { OngoingToolCall.plain call_id with apply_patch := some ⟨is_delete,is_delete⟩ },
      ⟨[(call_id,if is_delete then env.json_text (.object [("callId",.string call_id),("operation",operation)])
        else patch_opening env call_id op_type (operation_text operation "path"))],[]⟩)
  | .DiffDelta delta =>
    match slot with
    | some call =>
      match call.apply_patch with
      | some state => (some { call with apply_patch := some { state with has_diff := true } },
          ⟨[(call.tool_call_id,escape_json_delta env delta)],[]⟩)
      | none => (slot,⟨[],[]⟩)
    | none => (slot,⟨[],[]⟩)
  | .DiffDone diff =>
    match slot with
    | some call =>
      match call.apply_patch with
      | some state =>
        if state.end_emitted then (slot,⟨[],[]⟩)
        else (some { call with apply_patch := some ⟨true,true⟩ },
          ⟨closing_inputs env call.tool_call_id state (diff.getD ""),[]⟩)
      | none => (slot,⟨[],[]⟩)
    | none => (slot,⟨[],[]⟩)
  | .PatchItemDone item =>
    let operation := or_null (item.get "operation")
    match slot with
    | none => (none,⟨[],[]⟩)
    | some call =>
      (none,⟨item_closing_inputs env call operation,if item.status = some "completed" then [(call.tool_call_id,
        env.json_text (.object [("callId",or_null (item.get "call_id")),("operation",operation)]))] else []⟩)

def watch_all : Option OngoingToolCall → List ItemEvent → Option OngoingToolCall × Inputs
  | slot,[] => (slot,⟨[],[]⟩)
  | slot,event :: rest =>
    ((watch_all (watch env slot event).1 rest).1,
      (watch env slot event).2.append (watch_all (watch env slot event).1 rest).2)

end

section
open ResponsesStreamState
variable {env : Environment} {s : ResponsesStreamState} {i : Nat}

variable {kind : ChunkKind} {parsed : ParseResult ResponsesChunk}

theorem call_of_brings {chunk : ResponsesChunk} (brings : Brings i chunk kind) :
    s.call_of chunk = (s.ongoing i).map (i,·) := by
  rw [call_of,brings.index,bind_some]

theorem input_delta_brings {chunk : ResponsesChunk} (brings : Brings i chunk kind) {delta : String}
    (text : chunk.get_str "delta" = some delta) (spelled : String → String) :
    Inputs.of (s.input_delta chunk spelled) =
      ⟨(s.ongoing i).toList.map fun call => (call.tool_call_id,spelled delta),[]⟩ := by
  rw [input_delta,call_of_brings brings,text]
  cases s.ongoing i <;> rfl

theorem inputs_closing (id : String) (state : ApplyPatchState) (diff : String) :
    Inputs.of (patch_closing env id state diff) = ⟨closing_inputs env id state diff,[]⟩ := by
  rw [patch_closing,closing_inputs]
  split_ifs <;> rfl

theorem inputs_item_closing (call : OngoingToolCall) (operation : JsonValue) :
    Inputs.of (item_closing env call operation) = ⟨item_closing_inputs env call operation,[]⟩ := by
  rw [item_closing,item_closing_inputs]
  cases call.apply_patch with
  | none => rfl
  | some =>
    dsimp only
    split_ifs
    · exact inputs_closing _ _ _
    · rfl

theorem handle_chunk_watch {chunk : ResponsesChunk} {event : ItemEvent} (carries : Carries i chunk event)
    (raw : JsonValue) :
    ((s.handle_chunk env chunk raw).1.ongoing i,Inputs.of (s.handle_chunk env chunk raw).2) = watch env (s.ongoing i) event := by
  cases carries with
  | codeAdded brings known code =>
    rw [handle_chunk,brings.kind]
    dsimp only
    rw [known,brings.index]
    dsimp only [getD_some]
    rw [item_added,code]
    dsimp only [code_interpreter_added]
    rw [ongoing_with_call,if_pos rfl]
    rfl
  | codeDelta brings text =>
    rw [handle_chunk,brings.kind]
    dsimp only
    rw [input_delta_brings brings text]
    rfl
  | codeDone brings =>
    rw [handle_chunk,brings.kind]
    dsimp only
    rw [code_done,call_of_brings brings,watch]
    cases s.ongoing i <;> rfl
  | codeItemDone brings known code =>
    rw [handle_chunk,brings.kind]
    dsimp only
    rw [known,brings.index]
    dsimp only [getD_some]
    rw [item_done,code]
    dsimp only [code_interpreter_done]
    rw [ongoing_without_call,if_pos rfl,watch]
    cases s.ongoing i <;> rfl
  | patchAdded brings known patch =>
    rw [handle_chunk,brings.kind]
    dsimp only
    rw [known,brings.index]
    dsimp only [getD_some]
    rw [item_added,patch]
    dsimp only [apply_patch_added,watch]
    split_ifs <;> rw [ongoing_with_call,if_pos rfl] <;> rfl
  | diffDelta brings text =>
    rw [handle_chunk,brings.kind]
    dsimp only
    rw [diff_delta,call_of_brings brings,text,watch.eq_def]
    cases slot : s.ongoing i with
    | none =>
      dsimp only [map_none]
      rw [slot]
      rfl
    | some call =>
      dsimp only [map_some]
      cases call.apply_patch with
      | none =>
        dsimp only
        rw [slot]
        rfl
      | some =>
        dsimp only
        rw [ongoing_with_call,if_pos rfl]
        rfl
  | diffDone brings =>
    rw [handle_chunk,brings.kind]
    dsimp only
    rw [diff_done,call_of_brings brings,watch.eq_def]
    cases slot : s.ongoing i with
    | none =>
      dsimp only [map_none]
      rw [slot]
      rfl
    | some call =>
      dsimp only [map_some]
      cases call.apply_patch with
      | none =>
        dsimp only
        rw [slot]
        rfl
      | some =>
        dsimp only
        split_ifs
        · rw [slot]
          rfl
        · rw [ongoing_with_call,if_pos rfl,inputs_closing]
  | patchItemDone brings known patch =>
    rw [handle_chunk,brings.kind]
    dsimp only
    rw [known,brings.index]
    dsimp only [getD_some]
    rw [item_done,patch]
    dsimp only [apply_patch_done]
    rw [watch.eq_def]
    cases slot : s.ongoing i with
    | none =>
      dsimp only
      rw [ongoing_without_call,if_pos rfl]
      rfl
    | some =>
      dsimp only
      split_ifs
      · rw [ongoing_called,ongoing_without_call,if_pos rfl,Inputs.of_append,inputs_item_closing]
        simp [Inputs.append,Inputs.of,input_delta_of,call_input_of,ToolCall.new]
      · rw [ongoing_without_call,if_pos rfl,inputs_item_closing]

theorem watch_all_append (slot : Option OngoingToolCall) (first second : List ItemEvent) :
    watch_all env slot (first ++ second) = ((watch_all env (watch_all env slot first).1 second).1,
      (watch_all env slot first).2.append (watch_all env (watch_all env slot first).1 second).2) := by
  induction first generalizing slot with
  | nil => rfl
  | cons _ _ ih => simp only [cons_append,watch_all,ih,Inputs.append,append_assoc]

/-! ### Runs -/

/-- The item that a parsed event belongs to. -/
def target_of : ParseResult ResponsesChunk → Option Nat
  | .Ok chunk _ => chunk.target
  | .Err .. => none

def item_parts (env : Environment) (include_raw : Bool) (i : Nat) :
    ResponsesStreamState → List (ParseResult ResponsesChunk) → List StreamPart
  | _,[] => []
  | s,chunk :: rest =>
    (if target_of chunk = some i then (s.handle_parsed env chunk include_raw).2 else []) ++
      item_parts env include_raw i (s.handle_parsed env chunk include_raw).1 rest

def Brought (i : Nat) (parsed : ParseResult ResponsesChunk) (event : ItemEvent) : Prop :=
  ∃ chunk raw, parsed = .Ok chunk raw ∧ Carries i chunk event

def EventsOf (i : Nat) (chunks : List (ParseResult ResponsesChunk)) (events : List ItemEvent) : Prop :=
  List.Forall₂ (Brought i) (chunks.filter fun chunk => target_of chunk = some i) events

theorem handle_parsed_watch {event : ItemEvent} (brought : Brought i parsed event) (include_raw : Bool) :
    ((s.handle_parsed env parsed include_raw).1.ongoing i,Inputs.of (s.handle_parsed env parsed include_raw).2) =
      watch env (s.ongoing i) event := by
  obtain ⟨chunk,raw,rfl,carries⟩ := brought
  have handled := @handle_chunk_watch env s i chunk event carries raw
  have raws : Inputs.of (if include_raw then [StreamPart.Raw raw] else []) = ⟨[],[]⟩ := by cases include_raw <;> rfl
  rw [← handled,handle_parsed]
  dsimp only
  rw [Inputs.of_append,raws]
  rfl

theorem handle_parsed_other (other : target_of parsed ≠ some i) (include_raw : Bool) :
    (s.handle_parsed env parsed include_raw).1.ongoing i = s.ongoing i := by
  cases parsed with
  | Ok _ raw => exact handle_chunk_other other raw
  | Err => rfl

/-- However the events of the item lie among those of others, its parts hold what its own events bring. -/
theorem item_parts_watch (include_raw : Bool) (chunks : List (ParseResult ResponsesChunk)) :
    ∀ (s : ResponsesStreamState) (events : List ItemEvent), EventsOf i chunks events →
      Inputs.of (item_parts env include_raw i s chunks) = (watch_all env (s.ongoing i) events).2 := by
  induction chunks with
  | nil =>
    intro s events brought
    obtain rfl := List.forall₂_nil_left_iff.mp brought
    rfl
  | cons chunk _ ih =>
    intro s events brought
    unfold EventsOf at brought
    rw [item_parts]
    by_cases own : target_of chunk = some i
    · rw [filter_cons_of_pos (by simpa using own)] at brought
      obtain ⟨event,_,first,later,rfl⟩ := List.forall₂_cons_left_iff.mp brought
      have handled := @handle_parsed_watch env s i chunk event first include_raw
      have slot : (s.handle_parsed env chunk include_raw).1.ongoing i = (watch env (s.ongoing i) event).1 :=
        congrArg Prod.fst handled
      have inputs : Inputs.of (s.handle_parsed env chunk include_raw).2 = (watch env (s.ongoing i) event).2 :=
        congrArg Prod.snd handled
      rw [if_pos own,Inputs.of_append,inputs,ih _ _ later,slot,watch_all]
    · rw [filter_cons_of_neg (by simpa using own)] at brought
      rw [if_neg own,nil_append,ih _ _ brought,handle_parsed_other own include_raw]

end

end Ferrin.OpenAi.Responses
