import Ferrin.Google.Stream
import Ferrin.Stream.Tally

/-!
The stream of `streamGenerateContent` obeys the contract, whatever the chunks.
Between two chunks what is open is the text or reasoning block and the calls in
progress, under ids that were never used before.
-/
namespace Ferrin.Google
open Ferrin.Stream Ferrin.Brackets List Tally OutputMapper
open GoogleStreamState (machine)
open List (getLast mem_append mem_singleton)
open StreamContractChecker (check isStreamStart)

/-! ### Ids -/

def FunctionCall.carried (call : FunctionCall) : Option ToolCallId :=
  match call.name with
  | some _ => call.id.filter (· ≠ "")
  | none => none

def Part.carried (part : Part) : Option ToolCallId := part.function_call.bind FunctionCall.carried

def carriedIds : List (ParseResult GenerateContentResponse) → List ToolCallId
  | [] => []
  | .Ok value _ :: rest =>
    ((value.candidate.bind (·.parts)).getD []).filterMap Part.carried ++ carriedIds rest
  | .Err .. :: rest => carriedIds rest

/-- Ids that are distinct, and that the generator never yields. -/
structure Apart (config : Config) (carried : List ToolCallId) : Prop where
  injective : Function.Injective config.generate_id
  once : carried.Nodup
  foreign : ∀ id ∈ carried, ∀ n, config.generate_id n ≠ id

variable {config : Config}

theorem Apart.later {before after : List ToolCallId} (apart : Apart config (before ++ after)) : Apart config after :=
  ⟨apart.injective,(List.nodup_append.mp apart.once).2.1,
    fun id mem => apart.foreign id (mem_append_right _ mem)⟩

structure Unused (config : Config) (generated : Nat) (carried tools : List ToolCallId) : Prop where
  unborn : ∀ n, generated ≤ n → config.generate_id n ∉ tools
  ahead : ∀ id ∈ carried, id ∉ tools

variable {n : Nat} {carried tools a b : List ToolCallId}

theorem Unused.grow {m : Nat} (unused : Unused config m carried tools)
    (grown : m ≤ n) : Unused config n carried tools :=
  ⟨fun k bound => unused.unborn k (grown.trans bound),unused.ahead⟩

theorem Unused.perm (unused : Unused config n a tools) (same : a.Perm b) : Unused config n b tools :=
  ⟨unused.unborn,fun id mem => unused.ahead id (same.mem_iff.mpr mem)⟩

theorem Apart.perm (apart : Apart config a) (same : a.Perm b) : Apart config b :=
  ⟨apart.injective,same.nodup_iff.mp apart.once,fun id mem => apart.foreign id (same.mem_iff.mpr mem)⟩

theorem Unused.sublist (unused : Unused config n a tools) (kept : b.Sublist a) : Unused config n b tools :=
  ⟨unused.unborn,fun id member => unused.ahead id (kept.subset member)⟩

theorem Apart.sublist (apart : Apart config a) (kept : b.Sublist a) : Apart config b :=
  ⟨apart.injective,apart.once.sublist kept,fun id member => apart.foreign id (kept.subset member)⟩

theorem Unused.serve {id : ToolCallId} (apart : Apart config (id :: carried))
    (unused : Unused config n (id :: carried) tools) : id ∉ tools ∧ Unused config n carried (tools ++ [id]) := by
  refine ⟨unused.ahead id mem_cons_self,?_,?_⟩
  · intro k bound mem
    rcases mem_append.mp mem with old | new
    · exact unused.unborn k bound old
    · exact apart.foreign id mem_cons_self k (mem_singleton.mp new)
  · intro other later mem
    rcases mem_append.mp mem with old | new
    · exact unused.ahead other (mem_cons_of_mem _ later) old
    · obtain rfl := mem_singleton.mp new
      exact (List.nodup_cons.mp apart.once).1 later

theorem Unused.generate (apart : Apart config carried)
    (unused : Unused config n carried tools) : config.generate_id n ∉ tools ∧
      Unused config (n + 1) carried (tools ++ [config.generate_id n]) := by
  refine ⟨unused.unborn _ le_rfl,?_,?_⟩
  · intro k bound mem
    rcases mem_append.mp mem with old | new
    · exact unused.unborn k (Nat.le_of_succ_le bound) old
    · exact Nat.ne_of_gt bound (apart.injective (mem_singleton.mp new))
  · intro other later mem
    rcases mem_append.mp mem with old | new
    · exact unused.ahead other later old
    · exact apart.foreign other later _ (mem_singleton.mp new).symm

theorem id_or_generated_unused {m : OutputMapper} {id : Option String}
    (apart : Apart config ((id.filter (· ≠ "")).toList ++ carried))
    (unused : Unused config m.generated ((id.filter (· ≠ "")).toList ++ carried) tools) :
    (m.id_or_generated config id).2 ∉ tools ∧
      Unused config (m.id_or_generated config id).1.generated carried (tools ++ [(m.id_or_generated config id).2]) := by
  unfold id_or_generated
  cases brought : id.filter (· ≠ "") with
  | some =>
    rw [brought] at apart unused
    exact unused.serve apart
  | none =>
    rw [brought] at apart unused
    exact unused.generate apart

variable (m : OutputMapper)

theorem id_or_generated_generated (id : Option String) :
    m.generated ≤ (m.id_or_generated config id).1.generated := by
  unfold id_or_generated
  cases id.filter (· ≠ "") with
  | some => exact Nat.le_refl m.generated
  | none => exact Nat.le_succ m.generated

theorem code_execution_result_generated (outcome output signature : Option String) :
    m.generated ≤ (m.code_execution_result_with_signature config outcome output signature).1.generated := by
  unfold code_execution_result_with_signature
  cases m.last_code_execution_id with
  | some => exact Nat.le_refl m.generated
  | none => exact Nat.le_succ m.generated

theorem server_tool_response_generated (response : JsonValue) :
    m.generated ≤ (m.server_tool_response config response).1.generated := by
  unfold server_tool_response
  cases m.last_server_tool_call_id with
  | some => exact Nat.le_refl m.generated
  | none =>
    cases (response.get "id").bind JsonValue.as_str with
    | some => exact Nat.le_refl m.generated
    | none => exact Nat.le_succ m.generated

theorem chunk_sources_generated (chunk : GroundingChunk) :
    m.generated ≤ (m.chunk_sources config chunk).1.generated := by
  obtain ⟨web,image,context,maps⟩ := chunk
  unfold chunk_sources
  -- A source takes one id, whichever of the four it comes from.
  cases web.bind (·.uri) <;> cases (image.bind fun image => image.source_uri <|> image.image_uri) <;>
    cases maps.bind (·.uri) <;> rcases context with _ | ⟨_ | _,_,_ | _⟩ <;>
    simp only [source,generate_id] <;> grind

theorem sources_generated (chunks : List GroundingChunk) : ∀ m : OutputMapper,
    m.generated ≤ (m.sources config chunks).1.generated := by
  induction chunks with
  | nil => intro m; exact le_rfl
  | cons chunk _ ih =>
    intro m
    exact (chunk_sources_generated m chunk).trans (ih _)

namespace GoogleStreamState

def Opens (s : GoogleStreamState) : PartKey → Prop
  | .text id => s.text_block = some id
  | .reasoning id => s.reasoning_block = some id
  | .toolInput id => id ∈ s.active_calls.map (·.id)

structure Shows (config : Config) (s : GoogleStreamState) (carried : List ToolCallId) (opens : Finset PartKey)
    (ids : List PartId) (tools : List ToolCallId) : Prop where
  keys : ∀ key, key ∈ opens ↔ s.Opens key
  numbered : ∀ id ∈ ids, ∃ n < s.block_counter, id = block_id n
  once : (s.active_calls.map (·.id)).Nodup
  started : ∀ id ∈ s.active_calls.map (·.id), id ∈ tools
  unused : Unused config s.mapper.generated carried tools

/-- The output so far kept the contract. -/
inductive Stands (config : Config) (s : GoogleStreamState) (carried : List ToolCallId) : Tally → Prop
  | running {opens : Finset PartKey} {ids : List PartId} {tools : List ToolCallId}
    (shows_ : Shows config s carried opens ids tools) : Stands config s carried (.running opens ids tools)
  | failed : Stands config s carried .failed

section
variable {s s' : GoogleStreamState} {carried : List ToolCallId} {t : Tally}

theorem Stands.congr (stands : Stands config s carried t) (text : s'.text_block = s.text_block)
    (reasoning : s'.reasoning_block = s.reasoning_block) (counter : s'.block_counter = s.block_counter)
    (calls : s'.active_calls = s.active_calls) (generated : s.mapper.generated ≤ s'.mapper.generated) :
    Stands config s' carried t := by
  cases stands with
  | failed => exact .failed
  | running shows_ =>
    refine .running ⟨?_,counter ▸ shows_.numbered,calls ▸ shows_.once,calls ▸ shows_.started,?_⟩
    · intro key
      rw [shows_.keys key]
      cases key <;> simp [Opens,text,reasoning,calls]
    · exact shows_.unused.grow generated

variable {parts : List StreamPart} {part : StreamPart} {k : PartKey} {rest : List ToolCallId} {call : FunctionCall}
  {α : Type} {f : GoogleStreamState → α → GoogleStreamState × List StreamPart}

section
variable (stands : Stands config s carried t)
include stands

theorem Stands.quiet
    (quiet : ∀ part ∈ parts, Inner part ∧ mark part = none) : Stands config s carried (t.after parts) := by
  induction parts generalizing t with
  | nil => exact stands
  | cons part _ ih =>
    obtain ⟨inner,unmarked⟩ := quiet part mem_cons_self
    have later := fun p m => quiet p (mem_cons_of_mem _ m)
    rw [after_cons]
    cases stands with
    | failed => exact ih .failed later
    | running shows_ =>
      rw [next_quiet inner unmarked]
      exact ih (.running shows_) later

theorem Stands.silent (inner : Inner part)
    (unmarked : mark part = none) : Stands config s carried (t.next part) := by
  have single := fun p (mem : p ∈ [part]) => mem_singleton.mp mem ▸ And.intro inner unmarked
  exact stands.quiet single

theorem Stands.within
    (marked : mark part = some (.within k)) (isOpen : s.Opens k) : Stands config s carried (t.next part) := by
  cases stands with
  | failed => exact .failed
  | running shows_ =>
    rw [next_within marked ((shows_.keys k).mpr isOpen)]
    exact .running shows_

theorem Stands.withins (isOpen : s.Opens k)
    (only : ∀ part ∈ parts, mark part = some (.within k)) : Stands config s carried (t.after parts) := by
  induction parts generalizing t with
  | nil => exact stands
  | cons part _ ih =>
    rw [after_cons]
    exact ih (stands.within (only part mem_cons_self) isOpen) fun p m => only p (mem_cons_of_mem _ m)

theorem Stands.closes
    (marked : mark part = some (.closes k)) (isOpen : s.Opens k)
    (rest : ∀ other, s'.Opens other ↔ other ≠ k ∧ s.Opens other) (counter : s'.block_counter = s.block_counter)
    (calls : (s'.active_calls.map (·.id)).Sublist (s.active_calls.map (·.id))) (mapper : s'.mapper = s.mapper) :
    Stands config s' carried (t.next part) := by
  cases stands with
  | failed => exact .failed
  | running shows_ =>
    rw [next_closes marked ((shows_.keys k).mpr isOpen)]
    refine .running ⟨?_,counter ▸ shows_.numbered,shows_.once.sublist calls,?_,mapper ▸ shows_.unused⟩
    · intro other
      rw [Finset.mem_erase,shows_.keys,rest]
    · intro id mem
      exact shows_.started id (calls.subset mem)

theorem Stands.opens
    (marked : mark part = some (.opens k)) (named : k = .text (block_id s.block_counter) ∨
      k = .reasoning (block_id s.block_counter)) (closed : ¬ s.Opens k)
    (grown : ∀ other, s'.Opens other ↔ other = k ∨ s.Opens other) (counter : s'.block_counter = s.block_counter + 1)
    (calls : s'.active_calls = s.active_calls) (mapper : s'.mapper = s.mapper) :
    Stands config s' carried (t.next part) := by
  cases stands with
  | failed => exact .failed
  | @running opens ids tools shows_ =>
    have names : partId part = some (block_id s.block_counter) ∧ toolInputId part = none := by
      obtain ⟨-,partName,toolName⟩ := opens_names marked
      rcases named with rfl | rfl <;> exact ⟨partName,toolName⟩
    have fresh : block_id s.block_counter ∉ ids := by
      intro taken
      obtain ⟨n,before,same⟩ := shows_.numbered _ taken
      exact Nat.ne_of_gt before (toString_injective same)
    rw [next_opens marked (fun isOpen => closed ((shows_.keys k).mp isOpen)),names.1,names.2,Option.toList_none,
      append_nil]
    · refine .running ⟨?_,?_,calls ▸ shows_.once,calls ▸ shows_.started,mapper ▸ shows_.unused⟩
      · intro other
        rw [Finset.mem_insert,shows_.keys,grown]
      · intro id mem
        rcases mem_append.mp mem with old | new
        · obtain ⟨n,_,same⟩ := shows_.numbered id old
          exact ⟨n,by omega,same⟩
        · exact ⟨s.block_counter,by omega,mem_singleton.mp new⟩
    · intro id same
      rw [names.1] at same
      cases same
      exact fresh
    · intro id same
      rw [names.2] at same
      cases same

end

/-! ### Blocks -/

theorem end_text_others (s : GoogleStreamState) : s.end_text.1.active_calls = s.active_calls := by
  unfold GoogleStreamState.end_text
  cases s.text_block <;> rfl

theorem end_reasoning_others (s : GoogleStreamState) :
    s.end_reasoning.1.text_block = s.text_block ∧ s.end_reasoning.1.active_calls = s.active_calls := by
  unfold GoogleStreamState.end_reasoning
  cases s.reasoning_block <;> exact ⟨rfl,rfl⟩

section
variable (stands : Stands config s carried t)
include stands

theorem Stands.end_text :
    Stands config s.end_text.1 carried (t.after s.end_text.2) ∧ s.end_text.1.text_block = none := by
  unfold GoogleStreamState.end_text
  cases isOpen : s.text_block with
  | none => exact ⟨stands,isOpen⟩
  | some id =>
    refine ⟨stands.closes (k := .text id) rfl isOpen ?_ rfl (List.Sublist.refl _) rfl,rfl⟩
    intro other
    cases other <;> simp [Opens,isOpen]
    exact Ne.symm

theorem Stands.end_reasoning :
    Stands config s.end_reasoning.1 carried (t.after s.end_reasoning.2) ∧ s.end_reasoning.1.reasoning_block = none := by
  unfold GoogleStreamState.end_reasoning
  cases isOpen : s.reasoning_block with
  | none => exact ⟨stands,isOpen⟩
  | some id =>
    refine ⟨stands.closes (k := .reasoning id) rfl isOpen ?_ rfl (List.Sublist.refl _) rfl,rfl⟩
    intro other
    cases other <;> simp [Opens,isOpen]
    exact Ne.symm

theorem Stands.text (metadata : Option ProviderMetadata) :
    Stands config (s.text metadata).1 carried (t.after (s.text metadata).2.2) ∧
      (s.text metadata).1.text_block = some (s.text metadata).2.1 := by
  unfold GoogleStreamState.text
  cases isOpen : s.text_block with
  | some => exact ⟨stands,isOpen⟩
  | none =>
    refine ⟨stands.opens (k := .text (block_id s.block_counter)) rfl (.inl rfl) ?_ ?_ rfl rfl rfl,rfl⟩
    · simp [Opens,isOpen]
    · intro other
      cases other <;> simp [Opens,isOpen,next_block_id,eq_comm]

theorem Stands.reasoning (metadata : Option ProviderMetadata) :
    Stands config (s.reasoning metadata).1 carried (t.after (s.reasoning metadata).2.2) ∧
      (s.reasoning metadata).1.reasoning_block = some (s.reasoning metadata).2.1 := by
  unfold GoogleStreamState.reasoning
  cases isOpen : s.reasoning_block with
  | some => exact ⟨stands,isOpen⟩
  | none =>
    refine ⟨stands.opens (k := .reasoning (block_id s.block_counter)) rfl (.inr rfl) ?_ ?_ rfl rfl rfl,rfl⟩
    · simp [Opens,isOpen]
    · intro other
      cases other <;> simp [Opens,isOpen,next_block_id,eq_comm]

theorem Stands.text_part (text : String) (thought : Bool)
    (signature : Option String) : Stands config (s.text_part config text thought signature).1 carried
      (t.after (s.text_part config text thought signature).2) := by
  unfold GoogleStreamState.text_part
  dsimp only
  split_ifs
  · split
    · exact stands.within (k := .text _) rfl ‹_›
    · exact stands
  · obtain ⟨ended,-⟩ := stands.end_text
    obtain ⟨begun,isOpen⟩ := ended.reasoning (signature_metadata config signature)
    rw [after_append,after_append]
    exact begun.within (k := .reasoning _) rfl isOpen
  · obtain ⟨ended,-⟩ := stands.end_reasoning
    obtain ⟨begun,isOpen⟩ := ended.text (signature_metadata config signature)
    rw [after_append,after_append]
    exact begun.within (k := .text _) rfl isOpen

theorem Stands.error (error : StreamError) :
    Stands config s carried (t.next (.Error error)) := by
  cases stands <;> exact .failed

theorem Stands.file_parts (file : Except ProviderError Content) :
    Stands config s carried (t.after (file_parts file)) := by
  cases file with
  | error error => exact stands.error _
  | ok content =>
    refine stands.quiet ?_
    cases content <;> simp [GoogleStreamState.file_parts,Stream.Inner,StreamPart.isTerminal,isStreamStart,mark]

theorem Stands.content_parts (part : Part) :
    Stands config (s.content_parts config part).1 carried (t.after (s.content_parts config part).2) := by
  have shown : ∀ (mapper : OutputMapper) (part : StreamPart), s.mapper.generated ≤ mapper.generated →
      Inner part → mark part = none → Stands config { s with mapper } carried (t.after [part]) := by
    intro mapper part grown inner unmarked
    exact (stands.silent inner unmarked).congr rfl rfl rfl rfl grown
  unfold GoogleStreamState.content_parts
  cases part.executable_code.filter (·.code.isSome) with
  | some => exact shown _ _ (Nat.le_succ _) ⟨rfl,rfl⟩ rfl
  | none =>
  cases part.code_execution_result with
  | some => exact shown _ _ (code_execution_result_generated _ _ _ _) ⟨rfl,rfl⟩ rfl
  | none =>
  cases part.text with
  | some text => exact stands.text_part text _ _
  | none =>
  cases part.inline_data with
  | some =>
    obtain ⟨noText,-⟩ := stands.end_text
    obtain ⟨noReasoning,-⟩ := noText.end_reasoning
    dsimp only
    rw [after_append,after_append]
    exact noReasoning.file_parts _
  | none =>
  cases part.tool_call with
  | some => exact shown _ _ (id_or_generated_generated _ _) ⟨rfl,rfl⟩ rfl
  | none =>
  cases part.tool_response with
  | some => exact shown _ _ (server_tool_response_generated _ _) ⟨rfl,rfl⟩ rfl
  | none => exact stands

theorem Stands.starts {id : ToolCallId}
    (marked : mark part = some (.opens (.toolInput id)))
    (fresh : ∀ tools, Unused config s.mapper.generated carried tools →
      id ∉ tools ∧ Unused config s'.mapper.generated rest (tools ++ [id]))
    (text : s'.text_block = s.text_block) (reasoning : s'.reasoning_block = s.reasoning_block)
    (counter : s'.block_counter = s.block_counter)
    (calls : s'.active_calls.map (·.id) = s.active_calls.map (·.id) ++ [id]) :
    Stands config s' rest (t.next part) := by
  cases stands with
  | failed => exact .failed
  | @running opens ids tools shows_ =>
    obtain ⟨-,partName,toolName⟩ := opens_names marked
    obtain ⟨unused,later⟩ := fresh tools shows_.unused
    have closed : id ∉ s.active_calls.map (·.id) := fun mem => unused (shows_.started id mem)
    rw [next_opens marked (fun isOpen => closed ((shows_.keys _).mp isOpen)),partName,toolName,Option.toList_none,
      append_nil]
    · refine .running ⟨?_,counter ▸ shows_.numbered,?_,?_,later⟩
      · intro other
        rw [Finset.mem_insert,shows_.keys]
        cases other <;> simp [Opens,text,reasoning,calls,or_comm]
      · rw [calls,nodup_append]
        exact ⟨shows_.once,by simp,fun a before b new => fun same => closed (mem_singleton.mp new ▸ same ▸ before)⟩
      · rw [calls]
        intro other mem
        rcases mem_append.mp mem with old | new
        · exact mem_append_left _ (shows_.started other old)
        · exact mem_append_right _ new
    · intro other same
      rw [partName] at same
      cases same
    · intro other same
      rw [toolName] at same
      cases same
      exact unused

theorem Stands.ends {before : List ActiveToolCall} {active : ActiveToolCall}
    (calls : s.active_calls = before ++ [active]) (metadata : Option ProviderMetadata) (call : ToolCall) :
    Stands config { s with active_calls := before,has_tool_calls := true } carried
      (t.after [.ToolInputEnd active.id metadata,.ToolCall call]) := by
  rw [after_cons]
  cases stands with
  | failed => exact .failed
  | running shows_ =>
    have alone : active.id ∉ before.map (·.id) := by
      have once := shows_.once
      rw [calls,map_append,nodup_append] at once
      exact fun member => once.2.2 _ member _ (by simp) rfl
    have isOpen : s.Opens (.toolInput active.id) := by simp [Opens,calls]
    refine Stands.quiet ((Stands.running shows_).closes (k := .toolInput active.id) rfl isOpen ?_ rfl ?_ rfl) ?_
    · intro other
      cases other <;> simp [Opens,calls]
      grind
    · simp [calls]
    · simp [Stream.Inner,StreamPart.isTerminal,isStreamStart,mark]

theorem Stands.finish_active_call :
    Stands config (s.finish_active_call config).1 carried (t.after (s.finish_active_call config).2) := by
  unfold GoogleStreamState.finish_active_call
  cases last : s.active_calls.getLast? with
  | none => exact stands
  | some active =>
    obtain ⟨before,calls⟩ := getLast?_eq_some_iff.mp last
    have isOpen : s.Opens (.toolInput active.id) := by simp [Opens,calls]
    have left : s.active_calls.dropLast = before := by rw [calls,dropLast_concat]
    dsimp only
    rw [after_append,left]
    refine (stands.withins isOpen ?_).ends calls _ _
    intro part mem
    split_ifs at mem
    · cases mem
    · obtain rfl := mem_singleton.mp mem
      rfl

end

theorem Stands.begin_call (metadata : Option ProviderMetadata)
    (apart : Apart config (call.carried.toList ++ rest)) (stands : Stands config s (call.carried.toList ++ rest) t) :
    Stands config (s.begin_call config call metadata).1 rest (t.after (s.begin_call config call metadata).2) := by
  unfold GoogleStreamState.begin_call
  cases named : call.name with
  | none =>
    have taken : call.carried = none := by rw [FunctionCall.carried,named]
    rw [taken] at stands
    exact stands
  | some =>
    have taken : call.carried = call.id.filter (· ≠ "") := by rw [FunctionCall.carried,named]
    rw [taken] at apart stands
    exact stands.starts rfl (fun tools unused => id_or_generated_unused apart unused) rfl rfl rfl map_append

theorem Stands.complete_call {name : String} (metadata : Option ProviderMetadata) (named : call.name = some name)
    (apart : Apart config (call.carried.toList ++ rest)) (stands : Stands config s (call.carried.toList ++ rest) t) :
    Stands config (s.complete_call config call name metadata).1 rest
      (t.after (s.complete_call config call name metadata).2) := by
  have taken : call.carried = call.id.filter (· ≠ "") := by rw [FunctionCall.carried,named]
  rw [taken] at apart stands
  unfold GoogleStreamState.complete_call function_call
  generalize taking : s.mapper.id_or_generated config call.id = next at *
  obtain ⟨mapper,id⟩ := next
  -- While its parts are shown the call is one more in progress.
  have begun : Stands config { s with mapper,active_calls := s.active_calls ++ [⟨id,custom_tool_name config name,.new,none⟩] }
      rest (t.next (.ToolInputStart id (custom_tool_name config name) false false none metadata)) := by
    refine stands.starts rfl ?_ rfl rfl rfl (by simp)
    intro tools unused
    have fresh := id_or_generated_unused apart unused
    rwa [taking] at fresh
  dsimp only
  rw [cons_append,after_cons,after_append]
  refine Stands.ends (begun.withins (k := .toolInput id) (by simp [Opens]) ?_) rfl _ _
  intro part mem
  split_ifs at mem
  · obtain rfl := mem_singleton.mp mem
    rfl
  · cases mem

theorem Stands.fill_call (stands : Stands config s carried t) (partial_args : List PartialArg)
    (metadata : Option ProviderMetadata) : Stands config (s.fill_call config partial_args metadata).1 carried
      (t.after (s.fill_call config partial_args metadata).2) := by
  unfold GoogleStreamState.fill_call
  cases last : s.active_calls.getLast? with
  | none => exact stands
  | some active =>
    obtain ⟨_,calls⟩ := getLast?_eq_some_iff.mp last
    have isOpen : s.Opens (.toolInput active.id) := by simp [Opens,calls]
    have filled (delta : List Char) : Stands config s carried (t.after (if delta = [] then []
        else [.ToolInputDelta active.id (String.ofList delta) metadata])) := by
      refine stands.withins isOpen ?_
      intro part mem
      split_ifs at mem
      · cases mem
      · obtain rfl := mem_singleton.mp mem
        rfl
    have same (accumulator : JsonAccumulator) :
        (s.active_calls.dropLast ++ [{ active with accumulator }]).map ActiveToolCall.id =
          s.active_calls.map ActiveToolCall.id := by
      simp [calls]
    dsimp only
    specialize filled (active.accumulator.process config.primitives partial_args).2
    specialize same (active.accumulator.process config.primitives partial_args).1
    generalize Tally.after t _ = told at filled
    cases filled with
    | failed => exact .failed
    | running shows_ =>
      refine .running ⟨?_,shows_.numbered,?_,?_,shows_.unused⟩
      · intro key
        rw [shows_.keys]
        cases key with
        | toolInput => simp only [Opens,same]
        | _ => rfl
      · rw [same]
        exact shows_.once
      · rw [same]
        exact shows_.started

theorem Stands.function_call_part {part : Part} (apart : Apart config (part.carried.toList ++ rest))
    (stands : Stands config s (part.carried.toList ++ rest) t) :
    Stands config (s.function_call_part config part).1 rest (t.after (s.function_call_part config part).2) := by
  unfold GoogleStreamState.function_call_part
  unfold Part.carried at apart stands
  cases called : part.function_call with
  | none =>
    rw [called] at stands
    exact stands
  | some call =>
    rw [called,Option.bind_some] at apart stands
    dsimp only
    have nameless (none_ : call.name = none) : Stands config s rest t := by
      rw [FunctionCall.carried,none_] at stands
      exact stands
    by_cases fragment : call.is_streaming_fragment = true
    · rw [if_pos fragment]
      have begun := stands.begin_call (signature_metadata config part.thought_signature) apart
      cases call.partial_args with
      | none => exact begun
      | some partial_args =>
        have filled := begun.fill_call partial_args (signature_metadata config part.thought_signature)
        dsimp only
        rw [after_append,after_append]
        split_ifs
        · exact filled.finish_active_call
        · exact filled
    · rw [if_neg fragment]
      by_cases terminal : call.is_terminal = true
      · have none_ : call.name = none := by
          simp only [FunctionCall.is_terminal,Bool.and_eq_true,Option.isNone_iff_eq_none] at terminal
          exact terminal.1.1.1
        rw [if_pos terminal]
        split_ifs
        · exact nameless none_
        · exact (nameless none_).finish_active_call
      · rw [if_neg terminal]
        cases named : call.name with
        | none => exact nameless named
        | some => exact stands.complete_call _ named apart

/-! ### Chunks -/

theorem Stands.each {u : α → Option ToolCallId}
    (kept : ∀ (s : GoogleStreamState) (t : Tally) (item : α) (rest : List ToolCallId),
      Apart config ((u item).toList ++ rest) → Stands config s ((u item).toList ++ rest) t →
      Stands config (f s item).1 rest (t.after (f s item).2)) (items : List α) :
    ∀ {s : GoogleStreamState} {t : Tally} {rest : List ToolCallId}, Apart config (items.filterMap u ++ rest) →
    Stands config s (items.filterMap u ++ rest) t →
    Stands config (GoogleStreamState.each f s items).1 rest (t.after (GoogleStreamState.each f s items).2) := by
  induction items with
  | nil => intro s t rest _ stands; exact stands
  | cons item items ih =>
    intro s t rest apart stands
    have split : (item :: items).filterMap u ++ rest = (u item).toList ++ (items.filterMap u ++ rest) := by
      rw [filterMap_cons]
      cases u item <;> rfl
    rw [split] at apart stands
    rw [GoogleStreamState.each]
    dsimp only
    rw [after_append]
    exact ih apart.later (kept s t item _ apart stands)

theorem Stands.each_quiet (kept : ∀ (s : GoogleStreamState) (t : Tally) (item : α), Stands config s carried t →
      Stands config (f s item).1 carried (t.after (f s item).2)) (items : List α) :
    ∀ {s : GoogleStreamState} {t : Tally}, Stands config s carried t →
    Stands config (GoogleStreamState.each f s items).1 carried (t.after (GoogleStreamState.each f s items).2) := by
  induction items with
  | nil => intro s t stands; exact stands
  | cons item _ ih =>
    intro s t stands
    rw [GoogleStreamState.each]
    dsimp only
    rw [after_append]
    exact ih (kept s t item stands)

theorem Stands.source_part (stands : Stands config s carried t) (source : Source) :
    Stands config (s.source_part source).1 carried (t.after (s.source_part source).2) := by
  unfold GoogleStreamState.source_part
  cases source with
  | Url =>
    dsimp only
    split_ifs
    · exact stands
    · exact (stands.silent ⟨rfl,rfl⟩ rfl).congr rfl rfl rfl rfl le_rfl
  | Document => exact stands.silent ⟨rfl,rfl⟩ rfl

theorem Stands.response_part (stands : Stands config s carried t) (value : GenerateContentResponse) :
    Stands config (s.response_part value).1 carried (t.after (s.response_part value).2) := by
  unfold GoogleStreamState.response_part
  cases value.response_id with
  | none => exact stands
  | some =>
    dsimp only
    split_ifs
    · exact stands
    · exact (stands.silent ⟨rfl,rfl⟩ rfl).congr rfl rfl rfl rfl le_rfl

theorem Stands.records (stands : Stands config s carried t) (value : GenerateContentResponse) (raw : JsonValue)
    (candidate : Candidate) : Stands config (s.record_usage value raw) carried t ∧
      Stands config (s.blocked config value) carried t ∧ Stands config (s.record_grounding candidate) carried t ∧
      Stands config (s.record_finish config value candidate) carried t := by
  refine ⟨?_,?_,stands.congr rfl rfl rfl rfl le_rfl,?_⟩
  · unfold GoogleStreamState.record_usage
    split <;> exact stands.congr rfl rfl rfl rfl le_rfl
  · unfold GoogleStreamState.blocked
    split <;> exact stands.congr rfl rfl rfl rfl le_rfl
  · unfold GoogleStreamState.record_finish
    dsimp only
    split <;> exact stands.congr rfl rfl rfl rfl le_rfl

theorem Stands.handle_chunk {value : GenerateContentResponse} (raw : JsonValue)
    (apart : Apart config (((value.candidate.bind (·.parts)).getD []).filterMap Part.carried ++ rest))
    (stands : Stands config s (((value.candidate.bind (·.parts)).getD []).filterMap Part.carried ++ rest) t) :
    Stands config (s.handle_chunk config value raw).1 rest (t.after (s.handle_chunk config value raw).2) := by
  unfold GoogleStreamState.handle_chunk
  have responded := stands.response_part value
  generalize s.response_part value = next at *
  obtain ⟨s₁,_⟩ := next
  dsimp only at responded ⊢
  cases chosen : value.candidate with
  | none =>
    rw [chosen] at responded
    have recorded := (responded.records value raw ⟨none,none,none,none,none,none⟩).1
    exact (recorded.records value raw ⟨none,none,none,none,none,none⟩).2.1
  | some candidate =>
    rw [chosen] at responded apart
    have recorded := (((responded.records value raw candidate).1).records value raw candidate).2.2.1
    dsimp only
    generalize (s₁.record_usage value raw).record_grounding candidate = s₂ at recorded ⊢
    have grown := @sources_generated config (candidate.grounding_chunks config) s₂.mapper
    generalize s₂.mapper.sources config (candidate.grounding_chunks config) = found at grown ⊢
    have sourced : Stands config { s₂ with mapper := found.1 } _ _ := recorded.congr rfl rfl rfl rfl grown
    have shown := sourced.each_quiet (f := GoogleStreamState.source_part) (fun s t item kept => kept.source_part item)
      found.2
    have content := shown.each_quiet (f := GoogleStreamState.content_parts config)
      (fun s t item kept => kept.content_parts item) (candidate.parts.getD [])
    have calls := Stands.each (f := GoogleStreamState.function_call_part config) (u := Part.carried)
      (fun s t item rest apart kept => Stands.function_call_part apart kept) (candidate.parts.getD []) apart content
    rw [after_append,after_append,after_append]
    exact (calls.records value raw candidate).2.2.2

theorem Stands.handle (chunk : ParseResult GenerateContentResponse) (later : List (ParseResult GenerateContentResponse))
    (include_raw : Bool) (apart : Apart config (carriedIds (chunk :: later)))
    (stands : Stands config s (carriedIds (chunk :: later)) t) :
    Stands config (s.handle config chunk include_raw).1 (carriedIds later)
      (t.after (s.handle config chunk include_raw).2) := by
  have raws (raw : JsonValue) (carried : List ToolCallId) (kept : Stands config s carried t) :
      Stands config s carried (t.after (if include_raw then [.Raw raw] else [])) := by
    refine kept.quiet ?_
    intro part mem
    split_ifs at mem
    · obtain rfl := mem_singleton.mp mem
      exact ⟨⟨rfl,rfl⟩,rfl⟩
    · cases mem
  unfold GoogleStreamState.handle
  cases chunk with
  | Ok _ raw =>
    dsimp only
    rw [after_append]
    exact (raws raw _ stands).handle_chunk raw apart
  | Err error =>
    dsimp only
    rw [after_append]
    exact (raws _ _ stands).error _

theorem Stands.finish (stands : Stands config s carried t) : (t.after s.finish).Ended := by
  unfold GoogleStreamState.finish
  split_ifs with early
  · cases stands <;> exact .inr rfl
  · obtain ⟨noText,closedText⟩ := stands.end_text
    obtain ⟨noReasoning,closedReasoning⟩ := noText.end_reasoning
    have idle : s.active_calls = [] := not_not.mp (not_or.mp early).2
    dsimp only
    rw [after_append,after_append]
    generalize Tally.after _ _ = told at noReasoning
    cases noReasoning with
    | failed => exact .inr rfl
    | @running opens ids tools shows_ =>
      have nothing : opens = ∅ := by
        rw [Finset.eq_empty_iff_forall_notMem]
        intro key member
        have isOpen := (shows_.keys key).mp member
        cases key <;> simp [Opens,end_reasoning_others,end_text_others,closedText,closedReasoning,idle] at isOpen
      subst nothing
      refine .inl ?_
      rw [after_cons,after_nil,next_finish,if_pos rfl]

theorem Stands.outputs (include_raw : Bool) (chunks : List (ParseResult GenerateContentResponse)) :
    ∀ {s : GoogleStreamState} {t : Tally}, Apart config (carriedIds chunks) → Stands config s (carriedIds chunks) t →
    (t.after (outputs (machine config) include_raw s chunks)).Ended := by
  induction chunks with
  | nil => intro s t _ stands; exact stands.finish
  | cons chunk rest ih =>
    intro s t apart stands
    have stepped : Stream.outputs (machine config) include_raw s (chunk :: rest) =
        (s.handle config chunk include_raw).2 ++
          Stream.outputs (machine config) include_raw (s.handle config chunk include_raw).1 rest := rfl
    have later : Apart config (carriedIds rest) := by
      cases chunk with
      | Ok => exact apart.later
      | Err => exact apart
    rw [stepped,after_append]
    exact ih later (stands.handle chunk rest include_raw apart)

end

end GoogleStreamState

/-- Whatever the chunks, the driven stream obeys the contract. -/
theorem google_stream_obeys (chunks : List (ParseResult GenerateContentResponse))
    (apart : Apart config (carriedIds chunks)) (mapper : OutputMapper) (warnings : List Warning) (include_raw : Bool) :
    check (drive_stream (.StreamStart warnings) chunks (machine config)
      (.new mapper) include_raw) = .ok () := by
  refine check_ok_of_tally _ _ warnings chunks include_raw (GoogleStreamState.Stands.outputs include_raw chunks apart ?_)
  refine .running ⟨?_,by simp,by simp [GoogleStreamState.new],by simp [GoogleStreamState.new],⟨by simp,by simp⟩⟩
  intro key
  cases key <;> simp [GoogleStreamState.Opens,GoogleStreamState.new]

def exampleConfig : Config where
  options_key := "google"
  to_custom := []
  primitives := ⟨fun _ => ['0'],id,fun _ data => data,fun _ => "",fun _ => none⟩
  grounding_chunk _ := none
  decode_base64 _ := .ok []
  generate_id := strokes

def emptyPart : Part := ⟨none,none,none,none,none,none,none,none,none⟩

def partsChunk (parts : List Part) (finish_reason : Option String) : ParseResult GenerateContentResponse :=
  .Ok ⟨some [⟨some parts,finish_reason,none,none,none,none⟩],none,none,none⟩ .null

def callPart (call : FunctionCall) : Part := { emptyPart with function_call := some call }

def exampleChunks : List (ParseResult GenerateContentResponse) :=
  [partsChunk [{ emptyPart with text := some "hm",thought := some true },{ emptyPart with text := some "So" }] none,
    partsChunk [callPart ⟨some "1",some "weather",none,none,some true⟩] none,
    partsChunk [callPart ⟨none,none,none,some [⟨"$.city".toList,some "Oslo",none,none,false,none⟩],none⟩] none,
    partsChunk [callPart ⟨some "2",some "time",none,none,none⟩] (some "STOP")]

theorem google_stream_obeys_of_calls :
    check (drive_stream (.StreamStart []) exampleChunks (machine exampleConfig)
      (.new .new) false) = .ok () := by
  have carried : carriedIds exampleChunks = ["1","2"] := by decide
  refine google_stream_obeys exampleChunks ⟨strokes_injective,?_,?_⟩ .new [] false
  · rw [carried]
    decide
  · rw [carried]
    intro id member n
    simp only [mem_cons,not_mem_nil,or_false] at member
    rcases member with rfl | rfl
    · exact strokes_ne (c := '1') (by decide) (by decide) n
    · exact strokes_ne (c := '2') (by decide) (by decide) n

end Ferrin.Google
