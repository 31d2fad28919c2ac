import Ferrin.Google.Interactions.Stream
import Ferrin.Google.StreamContract

/-!
The interactions stream obeys the contract, whatever the events. What is open
belongs to the open steps: each of them holds at most one part, under the id of
its index or under the id of its call.
-/
namespace Ferrin
open List JsonValue
open List (mem_cons mem_singleton nodup_append nodup_cons)

theorem JsonValue.text_assign (v : JsonValue) (key other : String) (value : JsonValue) (different : other ≠ key) :
    (v.assign key value).text other = v.text other := by
  cases v with
  | object =>
    simp only [text,index,get,assign,as_object,Option.bind_some,
      JsonObject.get,JsonObject.lookup_insert,if_neg different]
  | _ => rfl

namespace Google.Interactions
open Ferrin.Stream Ferrin.Brackets

/-! ### What a run brings along -/

def call_id (step : JsonValue) : Option ToolCallId :=
  match step.text "type" with
  | some kind => if kind = "function_call" ∨ isBuiltinCall kind then step.text "id" else none
  | none => none

def started (event : JsonValue) : Option (Nat × JsonValue) :=
  if event.text "event_type" = some "step.start" then
    match (event.index "index").as_u64,(event.index "step").text "type" with
    | some index,some _ => some (index,event.index "step")
    | _,_ => none
  else none

def startedSteps : List (ParseResult JsonValue) → List (Nat × JsonValue)
  | [] => []
  | .Ok event _ :: rest => (started event).toList ++ startedSteps rest
  | .Err .. :: rest => startedSteps rest

def callIds (steps : List (Nat × JsonValue)) : List ToolCallId := steps.filterMap (call_id ·.2)

theorem step_id_injective : Function.Injective step_id := by
  intro m n same
  have lists := congrArg String.toList same
  rw [step_id,step_id,String.toList_append,String.toList_append] at lists
  exact toString_injective (String.toList_injective (append_cancel_left lists))

namespace OpenStep

def keys (opened : OpenStep) : List PartKey :=
  if opened.step.text "type" = some "model_output" then
    if opened.text_open then [.text opened.id] else []
  else if opened.step.text "type" = some "thought" then [.reasoning opened.id]
  else if opened.step.text "type" = some "function_call" then [.toolInput ((opened.step.text "id").getD "")]
  else []

def Mute (opened : OpenStep) : Prop := opened.step.text "type" = some "model_output" ∧ opened.text_open = false

def pending (opened : OpenStep) : Option ToolCallId :=
  if opened.step.text "type" = some "function_call" then none else call_id opened.step

/-- Steps that the events tell apart no more. -/
structure Alike (a b : OpenStep) : Prop where
  id : b.id = a.id
  text_open : b.text_open = a.text_open
  kind : b.step.text "type" = a.step.text "type"
  call : b.step.text "id" = a.step.text "id"

variable {a b : OpenStep}

theorem Alike.keys (alike : Alike a b) : b.keys = a.keys := by
  unfold OpenStep.keys
  rw [alike.id,alike.text_open,alike.kind,alike.call]

theorem Alike.pending (alike : Alike a b) : b.pending = a.pending := by
  unfold OpenStep.pending call_id
  rw [alike.kind,alike.call]

end OpenStep

def Taken (ids : List PartId) (tools : List ToolCallId) : PartKey → Prop
  | .text id | .reasoning id => id ∈ ids
  | .toolInput id => id ∈ tools

def openKeys (steps : List (Nat × OpenStep)) : List PartKey := steps.flatMap (·.2.keys)

def pendingIds (steps : List (Nat × OpenStep)) : List ToolCallId := steps.filterMap (·.2.pending)

structure Shows (config : Config) (steps : List (Nat × OpenStep)) (generated : Nat) (later : List (Nat × JsonValue))
    (opens : Finset PartKey) (ids : List PartId) (tools : List ToolCallId) : Prop where
  keys : opens = (openKeys steps).toFinset
  once : (openKeys steps).Nodup
  taken : ∀ key ∈ openKeys steps, Taken ids tools key
  indices : (steps.map (·.1) ++ later.map (·.1)).Nodup
  named : ∀ entry ∈ steps, entry.2.id = step_id entry.1
  mute : ∀ entry ∈ steps, entry.2.Mute → step_id entry.1 ∉ ids
  ahead : ∀ entry ∈ later, step_id entry.1 ∉ ids
  apart : Apart config.toConfig (pendingIds steps ++ callIds later)
  unused : Unused config.toConfig generated (pendingIds steps ++ callIds later) tools

/-- The output so far kept the contract. -/
inductive Stands (config : Config) (steps : List (Nat × OpenStep)) (generated : Nat) (later : List (Nat × JsonValue)) :
    Tally → Prop
  | running {opens : Finset PartKey} {ids : List PartId} {tools : List ToolCallId}
    (shows_ : Shows config steps generated later opens ids tools) :
    Stands config steps generated later (.running opens ids tools)
  | failed : Stands config steps generated later .failed

variable {n : Nat} {changed : OpenStep} {step : JsonValue} {metadata : ProviderMetadata}

section
variable {config : Config} {steps rest : List (Nat × OpenStep)} {generated : Nat} {later : List (Nat × JsonValue)}
  {t : Tally} {index : Nat} {opened : OpenStep}

variable {ids ids' : List PartId} {tools tools' : List ToolCallId} {opens : Finset PartKey} {k : PartKey}
  {id : Option ToolCallId}

theorem Taken.mono (more : ids ⊆ ids') (others : tools ⊆ tools')
    {key : PartKey} (before : Taken ids tools key) : Taken ids' tools' key := by
  cases key with
  | toolInput => exact others before
  | _ => exact more before

theorem Shows.add
    (shows_ : Shows config steps generated later opens ids tools) (keys : openKeys rest = k :: openKeys steps)
    (closed : k ∉ openKeys steps) (more : ids ⊆ ids') (others : tools ⊆ tools') (own : Taken ids' tools' k) :
    insert k opens = (openKeys rest).toFinset ∧ (openKeys rest).Nodup ∧ ∀ key ∈ openKeys rest, Taken ids' tools' key := by
  rw [keys,toFinset_cons,shows_.keys]
  refine ⟨rfl,nodup_cons.mpr ⟨closed,shows_.once⟩,fun key mem => ?_⟩
  rcases mem_cons.mp mem with rfl | old
  · exact own
  · exact (shows_.taken key old).mono more others

theorem Shows.without (shows_ : Shows config ((index,opened) :: rest) generated later opens ids tools) :
    Shows config rest generated later (openKeys rest).toFinset ids tools :=
  have kept : (pendingIds rest ++ callIds later).Sublist (pendingIds ((index,opened) :: rest) ++ callIds later) :=
    ((sublist_cons_self _ _).filterMap _).append_right _
  { keys := rfl
    once := (nodup_append.mp shows_.once).2.1
    taken := fun key mem => shows_.taken key (mem_append_right _ mem)
    indices := (nodup_cons.mp shows_.indices).2
    named := fun entry mem => shows_.named entry (mem_cons_of_mem _ mem)
    mute := fun entry mem => shows_.mute entry (mem_cons_of_mem _ mem)
    ahead := shows_.ahead
    apart := shows_.apart.sublist kept
    unused := shows_.unused.sublist kept }

theorem Stands.perm (stands : Stands config steps generated later t) (same : steps.Perm rest) :
    Stands config rest generated later t := by
  cases stands with
  | failed => exact .failed
  | running shows_ =>
    have keys : (openKeys steps).Perm (openKeys rest) := same.flatMap_right _
    have ids : (pendingIds steps ++ callIds later).Perm (pendingIds rest ++ callIds later) :=
      (same.filterMap _).append_right _
    exact .running {
      keys := shows_.keys.trans (toFinset_eq_of_perm _ _ keys)
      once := keys.nodup_iff.mp shows_.once
      taken := fun key mem => shows_.taken key (keys.mem_iff.mpr mem)
      indices := ((same.map _).append_right _).nodup_iff.mp shows_.indices
      named := fun entry mem => shows_.named entry (same.mem_iff.mpr mem)
      mute := fun entry mem => shows_.mute entry (same.mem_iff.mpr mem)
      ahead := shows_.ahead
      apart := shows_.apart.perm ids
      unused := shows_.unused.perm ids }

theorem Stands.grow (stands : Stands config steps generated later t) (grown : generated ≤ n) :
    Stands config steps n later t := by
  cases stands with
  | failed => exact .failed
  | running shows_ => exact .running { shows_ with unused := shows_.unused.grow grown }

theorem Stands.alike (stands : Stands config ((index,opened) :: rest) generated later t)
    (alike : opened.Alike changed) : Stands config ((index,changed) :: rest) generated later t := by
  cases stands with
  | failed => exact .failed
  | running shows_ =>
    have keys : openKeys ((index,changed) :: rest) = openKeys ((index,opened) :: rest) := by
      simp [openKeys,alike.keys]
    have ids : pendingIds ((index,changed) :: rest) = pendingIds ((index,opened) :: rest) := by
      simp [pendingIds,filterMap_cons,alike.pending]
    exact .running {
      keys := keys ▸ shows_.keys
      once := keys ▸ shows_.once
      taken := keys ▸ shows_.taken
      indices := shows_.indices
      named := by
        have named := shows_.named
        simp only [forall_mem_cons] at named ⊢
        exact ⟨alike.id.trans named.1,named.2⟩
      mute := by
        have mute := shows_.mute
        simp only [forall_mem_cons,OpenStep.Mute] at mute ⊢
        rw [alike.kind,alike.text_open]
        exact mute
      ahead := shows_.ahead
      apart := ids ▸ shows_.apart
      unused := ids ▸ shows_.unused }

theorem Stands.quiet {parts : List StreamPart} (stands : Stands config steps generated later t)
    (quiet : ∀ part ∈ parts, Inner part ∧ mark part = none) : Stands config steps generated later (t.after parts) := by
  induction parts generalizing t with
  | nil => exact stands
  | cons part _ ih =>
    obtain ⟨inner,unmarked⟩ := quiet part mem_cons_self
    have others := fun p m => quiet p (mem_cons_of_mem _ m)
    rw [Tally.after_cons]
    cases stands with
    | failed => exact ih .failed others
    | running shows_ =>
      rw [Tally.next_quiet inner unmarked]
      exact ih (.running shows_) others

section
variable (stands : Stands config ((index,opened) :: rest) generated later t)
include stands

theorem Stands.within
    (parts : List StreamPart) (isOpen : k ∈ opened.keys) (only : ∀ part ∈ parts, mark part = some (.within k)) :
    Stands config ((index,opened) :: rest) generated later (t.after parts) := by
  induction parts generalizing t with
  | nil => exact stands
  | cons part _ ih =>
    have others := fun p m => only p (mem_cons_of_mem _ m)
    rw [Tally.after_cons]
    cases stands with
    | failed => exact ih .failed others
    | running shows_ =>
      have known : k ∈ (openKeys ((index,opened) :: rest)).toFinset := by simp [openKeys,isOpen]
      rw [Tally.next_within (only part mem_cons_self) (shows_.keys ▸ known)]
      exact ih (.running shows_) others

theorem Stands.speak (mute : opened.Mute)
    (metadata : Option ProviderMetadata) :
    Stands config ((index,{ opened with text_open := true }) :: rest) generated later
      (t.next (.TextStart opened.id metadata)) := by
  cases stands with
  | failed => exact .failed
  | @running opens ids tools shows_ =>
    have named : opened.id = step_id index := shows_.named _ mem_cons_self
    have fresh : opened.id ∉ ids := named ▸ shows_.mute _ mem_cons_self mute
    have silent : openKeys ((index,opened) :: rest) = openKeys rest := by
      simp [openKeys,OpenStep.keys,mute.1,mute.2]
    have spoken : openKeys ((index,{ opened with text_open := true }) :: rest) = .text opened.id :: openKeys rest := by
      simp [openKeys,OpenStep.keys,mute.1]
    have closed : .text opened.id ∉ openKeys rest := by
      intro isOpen
      have isTaken : opened.id ∈ ids := shows_.taken (.text opened.id) (silent ▸ isOpen)
      exact fresh isTaken
    have others (entry : Nat × OpenStep) (mem : entry ∈ rest) : step_id entry.1 ≠ opened.id := by
      have once := (nodup_append.mp shows_.indices).1
      rw [map_cons,nodup_cons] at once
      rintro same
      obtain same := step_id_injective (same.trans named)
      exact once.1 (List.mem_map.mpr ⟨entry,mem,same⟩)
    have future (entry : Nat × JsonValue) (mem : entry ∈ later) : step_id entry.1 ≠ opened.id := by
      have apart := (nodup_append.mp shows_.indices).2.2
      rintro same
      obtain same := step_id_injective (same.trans named)
      exact apart index (by simp) index (List.mem_map.mpr ⟨entry,mem,same⟩) rfl
    rw [Tally.next_opens (k := .text opened.id) rfl]
    · obtain ⟨keys,once,taken⟩ := shows_.add (spoken.trans (by rw [silent])) (silent ▸ closed)
        (subset_append_left _ _) (List.Subset.refl _) (mem_append_right _ (mem_singleton.mpr rfl))
      have noTool : (toolInputId (.TextStart opened.id metadata)).toList = [] := rfl
      rw [noTool,append_nil]
      refine .running {
        keys
        once
        taken
        indices := shows_.indices
        named := ?_
        mute := ?_
        ahead := ?_
        apart := shows_.apart
        unused := shows_.unused }
      · have names := shows_.named
        simp only [forall_mem_cons] at names ⊢
        exact names
      · intro entry mem silent_
        rcases mem_cons.mp mem with rfl | old
        · cases silent_.2
        · have before := shows_.mute entry (mem_cons_of_mem _ old) silent_
          simp [partId,before,others entry old]
      · intro entry mem
        simp [partId,shows_.ahead entry mem,future entry mem]
    · rw [shows_.keys,silent,mem_toFinset]
      exact closed
    · rintro id ⟨⟩
      exact fresh
    · rintro _ ⟨⟩

theorem Stands.drop (idle : opened.keys = []) :
    Stands config rest generated later t := by
  cases stands with
  | failed => exact .failed
  | @running opens ids tools shows_ =>
    have keys : openKeys ((index,opened) :: rest) = openKeys rest := by simp [openKeys,idle]
    rw [shows_.keys,keys]
    exact .running shows_.without

theorem Stands.close
    (holds : opened.keys = [k]) {part : StreamPart} (marked : mark part = some (.closes k)) :
    Stands config rest generated later (t.next part) := by
  cases stands with
  | failed => exact .failed
  | @running opens ids tools shows_ =>
    have keys : openKeys ((index,opened) :: rest) = k :: openKeys rest := by simp [openKeys,holds]
    have once := shows_.once
    rw [keys,nodup_cons] at once
    rw [shows_.keys,keys,toFinset_cons,Tally.next_closes marked (Finset.mem_insert_self _ _),
      Finset.erase_insert (mt List.mem_toFinset.mp once.1)]
    exact .running shows_.without

end

theorem id_served {carried : List ToolCallId} (apart : Apart config.toConfig (id.toList ++ carried))
    (unused : Unused config.toConfig generated (id.toList ++ carried) tools) :
    (id_or_generated config generated id).2 ∉ tools ∧
      Unused config.toConfig (id_or_generated config generated id).1 carried
        (tools ++ [(id_or_generated config generated id).2]) := by
  cases id with
  | some => exact unused.serve apart
  | none => exact unused.generate apart

theorem Stands.whole_call (stands : Stands config ((index,opened) :: rest) generated later t) (idle : opened.keys = [])
    (pending : opened.pending = id) {call : ToolCall}
    (named : call.tool_call_id = (id_or_generated config generated id).2) (part : PartId) :
    Stands config rest (id_or_generated config generated id).1 later (t.after (content_parts (.ToolCall call) part)) := by
  cases stands with
  | failed =>
    rw [Tally.after_failed]
    exact .failed
  | @running opens ids tools shows_ =>
    have carried : pendingIds ((index,opened) :: rest) ++ callIds later =
        id.toList ++ (pendingIds rest ++ callIds later) := by
      rw [pendingIds,filterMap_cons]
      simp only [pending]
      cases id <;> rfl
    obtain ⟨fresh,unused⟩ := id_served (carried ▸ shows_.apart) (carried ▸ shows_.unused)
    rw [← named] at fresh unused
    have keys : openKeys ((index,opened) :: rest) = openKeys rest := by simp [openKeys,idle]
    have closed : .toolInput call.tool_call_id ∉ opens := by
      rw [shows_.keys,mem_toFinset]
      intro isOpen
      have isTaken : call.tool_call_id ∈ tools := shows_.taken (.toolInput call.tool_call_id) isOpen
      exact fresh isTaken
    have noId : (partId (.ToolInputStart call.tool_call_id call.tool_name call.provider_executed call.dynamic none
      call.provider_metadata)).toList = [] := rfl
    rw [content_parts,Tally.after_cons,Tally.next_opens (k := .toolInput call.tool_call_id) rfl closed,noId,
      append_nil,Tally.after_cons,Tally.next_within (k := .toolInput call.tool_call_id) rfl
        (Finset.mem_insert_self _ _),Tally.after_cons,Tally.next_closes (k := .toolInput call.tool_call_id) rfl
        (Finset.mem_insert_self _ _),Finset.erase_insert closed,Tally.after_cons,Tally.next_quiet ⟨rfl,rfl⟩ rfl,
      Tally.after_nil]
    · rw [shows_.keys,keys]
      exact .running { shows_.without with
        taken := fun key mem => (shows_.without.taken key mem).mono (List.Subset.refl _) (subset_append_left _ _)
        unused }
    · rintro id ⟨⟩
    · rintro _ ⟨⟩
      exact fresh

/-! ### A step is started -/

def opening (index : Nat) (step : JsonValue) : OpenStep := ⟨step,step_id index,false,""⟩

theorem Shows.begin (shows_ : Shows config steps generated ((index,step) :: later) opens ids tools) :
    (((index,opening index step) :: steps).map (·.1) ++ later.map (·.1)).Nodup ∧
      (∀ entry ∈ (index,opening index step) :: steps, entry.2.id = step_id entry.1) ∧
      (∀ entry ∈ steps, step_id entry.1 ≠ step_id index) ∧ ∀ entry ∈ later, step_id entry.1 ≠ step_id index := by
  have once : (index :: (steps.map (·.1) ++ later.map (·.1))).Nodup := by
    have before := shows_.indices
    rw [map_cons] at before
    exact (List.perm_middle.nodup_iff).mp before
  have absent := (nodup_cons.mp once).1
  simp only [mem_append,mem_map,not_or,not_exists,not_and] at absent
  refine ⟨once,?_,?_,?_⟩
  · intro entry mem
    rcases mem_cons.mp mem with rfl | old
    · rfl
    · exact shows_.named entry old
  · intro entry mem same
    exact absent.1 entry mem (step_id_injective same)
  · intro entry mem same
    exact absent.2 entry mem (step_id_injective same)

section
variable (stands : Stands config steps generated ((index,step) :: later) t)
include stands

theorem Stands.begin_silent
    (noThought : step.text "type" ≠ some "thought") (noCall : step.text "type" ≠ some "function_call") :
    Stands config ((index,opening index step) :: steps) generated later t := by
  cases stands with
  | failed => exact .failed
  | @running opens ids tools shows_ =>
    obtain ⟨indices,named,_,_⟩ := shows_.begin
    have keys : openKeys ((index,opening index step) :: steps) = openKeys steps := by
      simp [openKeys,OpenStep.keys,opening,noThought,noCall]
    have carried : (pendingIds steps ++ callIds ((index,step) :: later)).Perm
        (pendingIds ((index,opening index step) :: steps) ++ callIds later) := by
      have pending : (opening index step).pending = call_id step := if_neg noCall
      simp only [pendingIds,callIds,filterMap_cons,pending]
      cases call_id step with
      | none => exact .refl _
      | some => exact perm_middle
    exact .running {
      keys := keys ▸ shows_.keys
      once := keys ▸ shows_.once
      taken := keys ▸ shows_.taken
      indices
      named
      mute := by
        intro entry mem mute
        rcases mem_cons.mp mem with rfl | old
        · exact shows_.ahead _ mem_cons_self
        · exact shows_.mute entry old mute
      ahead := fun entry mem => shows_.ahead entry (mem_cons_of_mem _ mem)
      apart := shows_.apart.perm carried
      unused := shows_.unused.perm carried }

theorem Stands.begin_thought
    (thought : step.text "type" = some "thought") (metadata : Option ProviderMetadata) :
    Stands config ((index,opening index step) :: steps) generated later
      (t.next (.ReasoningStart (step_id index) metadata)) := by
  cases stands with
  | failed => exact .failed
  | @running opens ids tools shows_ =>
    obtain ⟨indices,named,others,future⟩ := shows_.begin
    have fresh : step_id index ∉ ids := shows_.ahead _ mem_cons_self
    have keys : openKeys ((index,opening index step) :: steps) = .reasoning (step_id index) :: openKeys steps := by
      simp [openKeys,OpenStep.keys,opening,thought]
    have closed : .reasoning (step_id index) ∉ openKeys steps := by
      intro isOpen
      have isTaken : step_id index ∈ ids := shows_.taken (.reasoning (step_id index)) isOpen
      exact fresh isTaken
    have kept : (pendingIds ((index,opening index step) :: steps) ++ callIds later).Sublist
        (pendingIds steps ++ callIds ((index,step) :: later)) := by
      have pending : (opening index step).pending = none := by
        simp [OpenStep.pending,opening,call_id,thought,isBuiltinCall]
      simp only [pendingIds,filterMap_cons,pending]
      exact ((sublist_cons_self _ _).filterMap _).append_left _
    have noTool : (toolInputId (.ReasoningStart (step_id index) metadata)).toList = [] := rfl
    rw [Tally.next_opens (k := .reasoning (step_id index)) rfl,noTool,append_nil]
    · obtain ⟨keys,once,taken⟩ := shows_.add keys closed (subset_append_left _ _) (List.Subset.refl _)
        (mem_append_right _ (mem_singleton.mpr rfl))
      exact .running {
        keys
        once
        taken
        indices
        named
        mute := by
          intro entry mem mute
          rcases mem_cons.mp mem with rfl | old
          · exact absurd (thought.symm.trans mute.1) (by decide)
          · simp [partId,shows_.mute entry old mute,others entry old]
        ahead := by
          intro entry mem
          simp [partId,shows_.ahead entry (mem_cons_of_mem _ mem),future entry mem]
        apart := shows_.apart.sublist kept
        unused := shows_.unused.sublist kept }
    · rw [shows_.keys,mem_toFinset]
      exact closed
    · rintro id ⟨⟩
      exact fresh
    · rintro _ ⟨⟩

theorem Stands.begin_call
    (call : step.text "type" = some "function_call") {id : ToolCallId} (carries : step.text "id" = some id)
    (name : ToolName) (metadata : Option ProviderMetadata) :
    Stands config ((index,opening index step) :: steps) generated later
      (t.next (.ToolInputStart id name false false none metadata)) := by
  cases stands with
  | failed => exact .failed
  | @running opens ids tools shows_ =>
    obtain ⟨indices,named,_,_⟩ := shows_.begin
    have carried : (pendingIds steps ++ callIds ((index,step) :: later)).Perm
        (id :: (pendingIds ((index,opening index step) :: steps) ++ callIds later)) := by
      have pending : (opening index step).pending = none := if_pos call
      have own : call_id step = some id := by simp [call_id,call,carries]
      simp only [pendingIds,callIds,filterMap_cons,pending,own]
      exact perm_middle
    have apart := shows_.apart.perm carried
    obtain ⟨fresh,unused⟩ := (shows_.unused.perm carried).serve apart
    have keys : openKeys ((index,opening index step) :: steps) = .toolInput id :: openKeys steps := by
      simp [openKeys,OpenStep.keys,opening,call,carries]
    have closed : .toolInput id ∉ openKeys steps := by
      intro isOpen
      have isTaken : id ∈ tools := shows_.taken (.toolInput id) isOpen
      exact fresh isTaken
    have noId : (partId (.ToolInputStart id name false false none metadata)).toList = [] := rfl
    rw [Tally.next_opens (k := .toolInput id) rfl,noId,append_nil]
    · obtain ⟨keys,once,taken⟩ := shows_.add keys closed (List.Subset.refl _) (subset_append_left _ _)
        (mem_append_right _ (mem_singleton.mpr rfl))
      exact .running {
        keys
        once
        taken
        indices
        named
        mute := by
          intro entry mem mute
          rcases mem_cons.mp mem with rfl | old
          · exact absurd (call.symm.trans mute.1) (by decide)
          · exact shows_.mute entry old mute
        ahead := fun entry mem => shows_.ahead entry (mem_cons_of_mem _ mem)
        apart := apart.sublist (sublist_cons_self _ _)
        unused }
    · rw [shows_.keys,mem_toFinset]
      exact closed
    · rintro id ⟨⟩
    · rintro _ ⟨⟩
      exact fresh

end

end

section
variable {config : Config} {generated : Nat}

def Silent : Content → Prop
  | .ToolResult _ | .File .. | .Source _ | .Custom .. => True
  | _ => False

def isText : Content → Bool
  | .Text .. => true
  | _ => false

theorem Silent.parts {content : Content} (silent : Silent content) (id : PartId) :
    ∀ part ∈ content_parts content id, Inner part ∧ mark part = none := by
  intro part mem
  cases content with
  | ToolResult | File | Source | Custom =>
    obtain rfl := mem_singleton.mp mem
    exact ⟨⟨rfl,rfl⟩,rfl⟩
  | _ => cases silent

theorem gather_generated {read : Nat → JsonValue → Nat × List Source} (grows : ∀ n value, n ≤ (read n value).1)
    (values : List JsonValue) : ∀ n, n ≤ (gather read n values).1 := by
  induction values with
  | nil => intro n; exact le_rfl
  | cons value _ ih => intro n; exact (grows n value).trans (ih _)

variable (value : JsonValue)

theorem document_generated : generated ≤ (document config generated value).1 := by
  unfold document
  dsimp only
  split
  · exact le_rfl
  · split_ifs <;> exact Nat.le_succ generated

theorem annotation_generated : generated ≤ ( annotation config generated value).1 := by
  unfold annotation
  split
  · exact Nat.le_succ generated
  · exact Nat.le_succ generated
  · exact document_generated value
  · exact le_rfl

theorem cited_generated (kind : Option String) (value : JsonValue) : generated ≤ (cited config kind generated value).1 := by
  unfold cited
  split
  · exact Nat.le_succ generated
  · split
    all_goals first | exact Nat.le_succ generated | exact le_rfl
  · exact gather_generated (fun n _ => Nat.le_succ n) _ _
  · exact document_generated value
  · exact le_rfl

theorem extract_generated (block : JsonValue) : generated ≤ (extract config generated block).1 :=
  (gather_generated (fun _ value => annotation_generated value) _ _).trans
    (gather_generated (fun _ value => cited_generated _ value) _ _)

theorem extract_silent (block : JsonValue) : ∀ content ∈ (extract config generated block).2, Silent content := by
  intro content mem
  obtain ⟨_,-,rfl⟩ := List.mem_map.mp mem
  trivial

theorem block_generated (metadata : ProviderMetadata) :
    generated ≤ (block config generated value metadata).1 := by
  unfold block
  split
  · exact le_rfl
  · split_ifs
    · exact extract_generated value
    · exact le_rfl
    · exact le_rfl

variable {contents : List Content}

theorem block_contents {value : JsonValue} (read : (block config generated value metadata).2 = .ok contents) :
    ∀ content ∈ contents, isText content = true ∨ Silent content := by
  unfold block at read
  split at read
  · cases read
    exact fun content mem => absurd mem not_mem_nil
  · split_ifs at read
    · cases read
      intro content mem
      rcases mem_cons.mp mem with rfl | source
      · exact .inl rfl
      · exact .inr (extract_silent value content source)
    · dsimp only at read
      cases found : file_data config value with
      | error =>
        rw [found] at read
        cases read
      | ok data =>
        rw [found] at read
        cases read
        intro content mem
        obtain ⟨_,-,rfl⟩ := List.mem_map.mp mem
        exact .inr trivial
    · cases read
      exact fun content mem => absurd mem not_mem_nil

theorem blocks_generated (metadata : ProviderMetadata) (items : List JsonValue) :
    ∀ n, n ≤ (blocks config metadata n items).1 := by
  induction items with
  | nil => intro n; exact le_rfl
  | cons item _ ih =>
    intro n
    have first := @block_generated config n item metadata
    rw [blocks]
    generalize block config n item metadata = outcome at first ⊢
    obtain ⟨m,_ | _⟩ := outcome
    · exact first
    · exact Nat.le_trans first (ih m)

theorem blocks_contents (metadata : ProviderMetadata) (items : List JsonValue) : ∀ (n : Nat) (contents : List Content),
    (blocks config metadata n items).2 = .ok contents → ∀ content ∈ contents, isText content = true ∨ Silent content := by
  induction items with
  | nil =>
    intro n contents read
    cases read
    exact fun content mem => absurd mem not_mem_nil
  | cons item rest ih =>
    intro n contents read
    rw [blocks] at read
    cases first : block config n item metadata with
    | mk m outcome =>
      rw [first] at read
      cases outcome with
      | error => cases read
      | ok =>
        dsimp only at read
        cases others : (blocks config metadata m rest).2 with
        | error =>
          rw [others] at read
          cases read
        | ok found =>
          rw [others] at read
          cases read
          intro content mem
          rcases List.mem_append.mp mem with old | new
          · exact block_contents (congrArg Prod.snd first) content old
          · exact ih m found others content new

theorem id_or_generated_le (id : Option String) : generated ≤ (id_or_generated config generated id).1 := by
  cases id with
  | some => exact le_rfl
  | none => exact Nat.le_succ generated

/-- What a step shows when it stops. A thought and an output are shown while they are open. -/
inductive Stopped (config : Config) (generated : Nat) (step : JsonValue) : Nat → List Content → Prop
  | silent {n : Nat} {contents : List Content} (grown : generated ≤ n) (quiet : ∀ content ∈ contents, Silent content) :
    Stopped config generated step n contents
  | call {call : ToolCall} (named : call.tool_call_id = (id_or_generated config generated (step.text "id")).2)
    (calls : call_id step = step.text "id") :
    Stopped config generated step (id_or_generated config generated (step.text "id")).1 [.ToolCall call]

theorem step_stopped {interaction_id : Option String} {aliases : List (String × String)}
    (noOutput : step.text "type" ≠ some "model_output") (noThought : step.text "type" ≠ some "thought")
    (read : Interactions.step config generated step interaction_id aliases = (n,.ok contents)) :
    Stopped config generated step n contents := by
  unfold Interactions.step at read
  dsimp only at read
  cases kind : step.text "type" with
  | none =>
    rw [kind] at read
    simp [isBuiltinCall,isResult] at read
    obtain ⟨rfl,rfl⟩ := read
    exact .silent le_rfl fun content mem => absurd mem not_mem_nil
  | some =>
    rw [kind] at noOutput noThought read
    simp only [Option.getD_some] at read
    rw [if_neg (by simpa using noOutput),if_neg (by simpa using noThought)] at read
    split_ifs at read with processing calls isCall results
    · cases read
      exact .silent le_rfl (by simp [Silent])
    · cases failed : function_call_error step with
      | some =>
        rw [failed] at read
        cases read
      | none =>
        rw [failed] at read
        cases read
        exact .call rfl (by simp [call_id,kind,calls])
    · cases read
      exact .call rfl (by simp [call_id,kind,calls])
    · cases read
      refine .silent ((id_or_generated_le _).trans (extract_generated step)) ?_
      intro content mem
      rcases mem_cons.mp mem with rfl | source
      · trivial
      · exact extract_silent step content source
    · cases read
      exact .silent le_rfl fun content mem => absurd mem not_mem_nil

end

/-! ### Events -/

section
variable {config : Config} {s s' : State} {steps rest : List (Nat × OpenStep)} {generated : Nat}
  {later : List (Nat × JsonValue)} {t : Tally} {index : Nat} {opened : OpenStep} {parts : List StreamPart}

theorem Stands.output_parts (kind : opened.step.text "type" = some "model_output") (contents : List Content)
    (shown : ∀ content ∈ contents, isText content = true ∨ Silent content) : ∀ (text_open : Bool) (t : Tally),
    Stands config ((index,{ opened with text_open }) :: rest) generated later t →
    Stands config ((index,{ opened with text_open := (State.output_parts opened.id text_open contents).1 }) :: rest)
      generated later (t.after (State.output_parts opened.id text_open contents).2) := by
  induction contents with
  | nil => intro text_open t stands; exact stands
  | cons content contents ih =>
    intro text_open t stands
    have others := ih fun content mem => shown content (mem_cons_of_mem _ mem)
    rcases shown content mem_cons_self with isText | silent
    · cases content with
      | Text text metadata =>
        rw [State.output_parts]
        dsimp only
        rw [Tally.after_append,Tally.after_cons]
        have spoken : Stands config ((index,{ opened with text_open := true }) :: rest) generated later
            (t.after (if text_open then [] else [.TextStart opened.id metadata])) := by
          cases text_open with
          | true => exact stands
          | false => exact stands.speak ⟨kind,rfl⟩ metadata
        have isOpen : .text opened.id ∈ OpenStep.keys { opened with text_open := true } := by
          simp [OpenStep.keys,kind]
        exact others true _ (spoken.within [.text_delta opened.id text] isOpen (by simp [StreamPart.text_delta,mark]))
      | _ => cases isText
    · have parted : State.output_parts opened.id text_open (content :: contents) =
          ((State.output_parts opened.id text_open contents).1,
            content_parts content opened.id ++ (State.output_parts opened.id text_open contents).2) := by
        cases content with
        | Text => cases silent
        | _ => rfl
      rw [parted]
      dsimp only
      rw [Tally.after_append]
      exact others text_open _ (stands.quiet (silent.parts opened.id))

theorem Stands.insert {text_open : Bool}
    (stands : Stands config ((index,{ opening index step with text_open }) :: s.open_steps) s.generated later t) :
    Stands config (s.insert index step text_open).open_steps (s.insert index step text_open).generated later t :=
  stands.perm (perm_append_singleton _ _).symm

variable {kind : String} {delta : JsonValue}

theorem Stands.begin_step (typed : step.text "type" = some kind)
    (stands : Stands config s.open_steps s.generated ((index,step) :: later) t)
    (done : s.begin_step config index step kind = (s',.ok parts)) :
    Stands config s'.open_steps s'.generated later (t.after parts) := by
  unfold State.begin_step at done
  dsimp only at done
  split_ifs at done with thought output call
  · cases done
    subst thought
    have begun := stands.begin_thought typed (some (part_metadata config step s.interaction_id))
    have isOpen : .reasoning (step_id index) ∈ (opening index step).keys := by
      simp [OpenStep.keys,opening,typed]
    rw [Tally.after_cons]
    exact (begun.within _ isOpen (by simp [mark])).insert
  · subst output
    have begun := stands.begin_silent (by simp [typed]) (by simp [typed])
    cases read : Interactions.step config s.generated step s.interaction_id s.aliases with
    | mk n outcome =>
      rw [read] at done
      cases outcome with
      | error => cases done
      | ok contents =>
        cases done
        have isOutput : Interactions.step config s.generated step s.interaction_id s.aliases =
            blocks config (part_metadata config step s.interaction_id) s.generated (step.items "content") := by
          simp [Interactions.step,typed]
        rw [isOutput] at read
        have grown := @blocks_generated config (part_metadata config step s.interaction_id) (step.items "content")
          s.generated
        rw [read] at grown
        have shown := blocks_contents _ _ _ _ (congrArg Prod.snd read)
        have output : (opening index step).step.text "type" = some "model_output" := typed
        have told := Stands.output_parts output contents shown false _ (begun.grow grown)
        exact Stands.insert (s := s.took n) told
  · subst call
    cases carries : step.text "id" with
    | none =>
      rw [carries] at done
      cases done
    | some =>
      cases named : step.text "name" with
      | none =>
        rw [carries,named] at done
        cases done
      | some name =>
        rw [carries,named] at done
        cases done
        exact Stands.insert (s := { s with function := true }) (stands.begin_call typed carries name _)
  · cases done
    exact (stands.begin_silent (by simpa [typed] using thought) (by simpa [typed] using call)).insert

theorem Stands.front (stands : Stands config steps generated later t) (found : steps.lookup index = some opened) :
    Stands config ((index,opened) :: Assoc.remove steps index) generated later t := by
  cases stands with
  | failed => exact .failed
  | running shows_ =>
    exact (Stands.running shows_).perm (Assoc.perm_of_lookup (nodup_append.mp shows_.indices).1 found)

theorem Stands.update (keyed : (s.open_steps.map (·.1)).Nodup) (found : s.open_steps.lookup index = some opened)
    (stands : Stands config ((index,changed) :: Assoc.remove s.open_steps index) s.generated later t) :
    Stands config (s.update index changed).open_steps (s.update index changed).generated later t :=
  stands.perm (Assoc.perm_replace keyed found changed).symm

section
variable (stands : Stands config s.open_steps s.generated later t)
include stands

theorem Stands.text_delta
    (keyed : (s.open_steps.map (·.1)).Nodup) (found : s.open_steps.lookup index = some opened)
    (kind : opened.step.text "type" = some "model_output") (done : s.text_delta index opened delta = (s',.ok parts)) :
    Stands config s'.open_steps s'.generated later (t.after parts) := by
  cases done
  refine Stands.update keyed found ?_
  rw [Tally.after_append]
  have spoken : Stands config ((index,{ opened with text_open := true }) :: Assoc.remove s.open_steps index) s.generated
      later (t.after (if opened.text_open then [] else [.TextStart opened.id none])) := by
    cases opened_ : opened.text_open with
    | true =>
      have same : { opened with text_open := true } = opened := by rw [← opened_]
      rw [same]
      exact stands.front found
    | false => exact (stands.front found).speak ⟨kind,opened_⟩ none
  have isOpen : .text opened.id ∈ OpenStep.keys { opened with text_open := true } := by
    simp [OpenStep.keys,kind]
  exact spoken.within _ isOpen (by simp [StreamPart.text_delta,mark])

theorem Stands.arguments_delta
    (keyed : (s.open_steps.map (·.1)).Nodup) (found : s.open_steps.lookup index = some opened)
    (kind : opened.step.text "type" = some "function_call")
    (done : s.arguments_delta index opened delta = (s',.ok parts)) :
    Stands config s'.open_steps s'.generated later (t.after parts) := by
  have isOpen : .toolInput ((opened.step.text "id").getD "") ∈ opened.keys := by
    simp [OpenStep.keys,kind]
  have told := (stands.front found).within
    [.ToolInputDelta ((opened.step.text "id").getD "") ((delta.text "arguments").getD "") none] isOpen (by simp [mark])
  have changed (step : JsonValue) (kind : step.text "type" = opened.step.text "type")
      (call : step.text "id" = opened.step.text "id") (arguments : String) :
      Stands config (s.update index { opened with step,arguments }).open_steps s.generated later
        (t.after [.ToolInputDelta ((opened.step.text "id").getD "") ((delta.text "arguments").getD "") none]) :=
    Stands.update keyed found (told.alike ⟨rfl,rfl,kind,call⟩)
  unfold State.arguments_delta at done
  dsimp only at done
  cases signed : delta.get "signature" with
  | none =>
    rw [signed] at done
    split at done
    all_goals cases done
    all_goals exact changed _ rfl rfl _
  | some =>
    rw [signed] at done
    split at done
    all_goals cases done
    all_goals exact changed _ (text_assign _ _ _ _ (by decide)) (text_assign _ _ _ _ (by decide)) _

theorem Stands.block_delta
    (done : s.block_delta config opened delta kind = (s',.ok parts)) :
    Stands config s'.open_steps s'.generated later (t.after parts) := by
  unfold State.block_delta at done
  dsimp only at done
  generalize (if isMedia kind then delta else delta.assign "type" (.string "text")) = value at done
  generalize part_metadata config opened.step s.interaction_id = metadata at done
  have grown := @block_generated config s.generated value metadata
  cases read : block config s.generated value metadata with
  | mk n outcome =>
    rw [read] at done grown
    cases outcome with
    | error => cases done
    | ok =>
      cases done
      refine (stands.grow grown).quiet ?_
      intro part mem
      obtain ⟨content,inside,shown⟩ := List.mem_flatMap.mp mem
      rcases block_contents (congrArg Prod.snd read) content inside with isText | silent
      · cases content with
        | Text => cases shown
        | _ => cases isText
      · cases content with
        | Text => cases silent
        | _ => exact silent.parts opened.id part shown

end

theorem text_extend (key : String) (fields : JsonObject) (absent : ∀ field ∈ fields, field.1 ≠ key) :
    ∀ target : JsonObject, (JsonValue.object (JsonObject.extend target fields)).text key =
      (JsonValue.object target).text key := by
  induction fields with
  | nil => intro target; rfl
  | cons field _ ih =>
    intro target
    obtain ⟨first,others⟩ := List.forall_mem_cons.mp absent
    have next := ih others (JsonObject.insert target field.1 field.2)
    exact next.trans (text_assign (.object target) field.1 key field.2 first.symm)

theorem text_merge (step delta : JsonValue) {key : String} (identity : key ∈ ["type","id","name"]) :
    (State.merge step delta).text key = step.text key := by
  cases step with
  | object target =>
    cases delta with
    | object =>
      refine text_extend key _ ?_ target
      intro field mem same
      have other := of_decide_eq_true (List.mem_filter.mp mem).2
      exact other (same ▸ identity)
    | _ => rfl
  | _ => rfl

theorem Stands.feed (stands : Stands config s.open_steps s.generated later t)
    (keyed : (s.open_steps.map (·.1)).Nodup) (found : s.open_steps.lookup index = some opened)
    (done : s.feed config index opened delta kind = (s',.ok parts)) :
    Stands config s'.open_steps s'.generated later (t.after parts) := by
  unfold State.feed at done
  dsimp only at done
  split_ifs at done with text summary signature arguments media merged mismatch
  · exact stands.text_delta keyed found text.2 done
  · cases done
    have isOpen : .reasoning opened.id ∈ opened.keys := by
      simp [OpenStep.keys,summary.2]
    exact ((stands.front found).within _ isOpen (by simp [mark])).perm
      (Assoc.perm_of_lookup keyed found).symm
  · cases done
    exact Stands.update keyed found ((stands.front found).alike ⟨rfl,rfl,text_assign _ _ _ _ (by decide),
      text_assign _ _ _ _ (by decide)⟩)
  · exact stands.arguments_delta keyed found arguments.2 done
  · exact stands.block_delta done
  · cases done
    exact Stands.update keyed found ((stands.front found).alike ⟨rfl,rfl,text_merge _ _ (by decide),
      text_merge _ _ (by decide)⟩)
  · cases done
  · cases done
    exact stands

theorem Stands.end_call (stands : Stands config ((index,opened) :: s.open_steps) s.generated later t)
    (kind : opened.step.text "type" = some "function_call")
    (done : s.end_call config opened metadata = (s',.ok parts)) :
    Stands config s'.open_steps s'.generated later (t.after parts) := by
  unfold State.end_call at done
  cases final : State.final_arguments config opened with
  | none =>
    rw [final] at done
    cases done
  | some arguments =>
    rw [final] at done
    dsimp only at done
    have kind_ : (opened.step.assign "arguments" arguments).text "type" = some "function_call" :=
      (text_assign _ _ _ _ (by decide)).trans kind
    have call : (opened.step.assign "arguments" arguments).text "id" = opened.step.text "id" :=
      text_assign _ _ _ _ (by decide)
    have holds : opened.keys = [.toolInput ((opened.step.text "id").getD "")] := by
      simp [OpenStep.keys,kind]
    generalize opened.step.assign "arguments" arguments = step at done kind_ call
    cases read : Interactions.step config s.generated step s.interaction_id s.aliases with
    | mk n outcome =>
      rw [read] at done
      cases outcome with
      | error => cases done
      | ok =>
        cases done
        rw [Tally.after_cons,call]
        have grown : s.generated ≤ n := by
          cases step_stopped (by simp [kind_]) (by simp [kind_]) read with
          | silent grown => exact grown
          | call => exact id_or_generated_le _
        refine ((stands.close holds rfl).grow grown).quiet ?_
        intro part mem
        obtain ⟨content,-,shown⟩ := List.mem_filterMap.mp mem
        cases content with
        | ToolCall =>
          cases shown
          exact ⟨⟨rfl,rfl⟩,rfl⟩
        | _ => cases shown

theorem Stands.stop (stands : Stands config ((index,opened) :: s.open_steps) s.generated later t)
    (done : s.close config opened = (s',.ok parts)) : Stands config s'.open_steps s'.generated later (t.after parts) := by
  unfold State.close at done
  dsimp only at done
  have typed (kind : String) (known : (opened.step.text "type").getD "" = kind) (nonempty_ : kind ≠ "") :
      opened.step.text "type" = some kind := by
    cases found : opened.step.text "type" with
    | none => exact absurd (known.symm.trans (by simp [found])) nonempty_
    | some => simpa [found] using known
  split_ifs at done with output text_open thought call
  · cases done
    exact stands.close (k := .text opened.id) (by simp [OpenStep.keys,typed _ output (by decide),text_open]) rfl
  · cases done
    exact stands.drop (by simp [OpenStep.keys,typed _ output (by decide),text_open])
  · cases done
    exact stands.close (k := .reasoning opened.id) (by simp [OpenStep.keys,typed _ thought (by decide)]) rfl
  · exact stands.end_call (typed _ call (by decide)) done
  · have noOutput : opened.step.text "type" ≠ some "model_output" := fun found => output (by simp [found])
    have noThought : opened.step.text "type" ≠ some "thought" := fun found => thought (by simp [found])
    have noCall : opened.step.text "type" ≠ some "function_call" := fun found => call (by simp [found])
    have idle : opened.keys = [] := by simp [OpenStep.keys,noOutput,noThought,noCall]
    cases read : Interactions.step config s.generated opened.step s.interaction_id s.aliases with
    | mk n outcome =>
      rw [read] at done
      cases outcome with
      | error => cases done
      | ok =>
        cases done
        cases step_stopped noOutput noThought read with
        | silent grown quiet =>
          refine ((stands.drop idle).grow grown).quiet ?_
          intro part mem
          obtain ⟨content,inside,shown⟩ := List.mem_flatMap.mp mem
          exact (quiet content inside).parts opened.id part shown
        | call named calls =>
          have pending : opened.pending = opened.step.text "id" := (if_neg noCall).trans calls
          rw [flatMap_singleton]
          exact stands.whole_call idle pending named opened.id

theorem Stands.step_start {event : JsonValue} (typed : event.text "event_type" = some "step.start")
    (stands : Stands config s.open_steps s.generated ((started event).toList ++ later) t)
    (done : s.step_start config event = (s',.ok parts)) :
    Stands config s'.open_steps s'.generated later (t.after parts) := by
  unfold State.step_start at done
  cases found : (event.index "index").as_u64 with
  | none =>
    rw [found] at done
    cases done
  | some index =>
    rw [found] at done
    dsimp only at done
    split_ifs at done with twice
    · cases done
    · cases kind : (event.index "step").text "type" with
      | none =>
        rw [kind] at done
        cases done
      | some =>
        rw [kind] at done
        have starts : started event = some (index,event.index "step") := by
          simp [started,typed,found,kind]
        rw [starts] at stands
        exact stands.begin_step kind done

theorem Stands.step_delta {event : JsonValue} (stands : Stands config s.open_steps s.generated later t)
    (keyed : (s.open_steps.map (·.1)).Nodup) (done : s.step_delta config event = (s',.ok parts)) :
    Stands config s'.open_steps s'.generated later (t.after parts) := by
  unfold State.step_delta at done
  cases found : (event.index "index").as_u64 with
  | none =>
    rw [found] at done
    cases done
  | some index =>
    rw [found] at done
    dsimp only at done
    cases known : s.open_steps.lookup index with
    | none =>
      rw [known] at done
      cases done
    | some =>
      rw [known] at done
      cases kind : (event.index "delta").text "type" with
      | none =>
        rw [kind] at done
        cases done
      | some =>
        rw [kind] at done
        exact stands.feed keyed known done

theorem Stands.step_stop {event : JsonValue} (stands : Stands config s.open_steps s.generated later t)
    (done : s.step_stop config event = (s',.ok parts)) :
    Stands config s'.open_steps s'.generated later (t.after parts) := by
  unfold State.step_stop at done
  cases found : (event.index "index").as_u64 with
  | none =>
    rw [found] at done
    cases done
  | some index =>
    rw [found] at done
    dsimp only at done
    cases known : s.open_steps.lookup index with
    | none =>
      rw [known] at done
      cases done
    | some =>
      rw [known] at done
      exact Stands.stop (s := { s with open_steps := Assoc.remove s.open_steps index }) (stands.front known) done

theorem completed_ok {event : JsonValue} (done : s.completed event = (s',.ok parts)) :
    s.open_steps = [] ∧ s'.open_steps = [] ∧ s'.generated = s.generated ∧ s'.terminal = true ∧ parts = [] := by
  unfold State.completed at done
  split_ifs at done with busy
  · cases done
  · split at done
    · split_ifs at done
      · cases done
        exact ⟨not_not.mp busy,not_not.mp busy,rfl,rfl,rfl⟩
      · cases done
    · cases done

theorem Stands.dispatch {event : JsonValue}
    (stands : Stands config s.open_steps s.generated ((started event).toList ++ later) t)
    (keyed : (s.open_steps.map (·.1)).Nodup) (done : s.dispatch config event = (s',.ok parts)) :
    Stands config s'.open_steps s'.generated later (t.after parts) := by
  unfold State.dispatch at done
  cases typed : event.text "event_type" with
  | none =>
    rw [typed] at done
    cases done
  | some kind =>
    rw [typed] at done
    dsimp only at done
    by_cases start : kind = "step.start"
    · subst start
      rw [if_neg (by decide),if_pos rfl] at done
      exact stands.step_start typed done
    · have none_ : started event = none := by simp [started,typed,start]
      rw [none_,Option.toList_none,nil_append] at stands
      rw [if_neg start] at done
      split_ifs at done with created delta stop completion error
      · cases done
        exact stands.quiet (by simp [Stream.Inner,StreamPart.isTerminal,StreamContractChecker.isStreamStart,mark])
      · exact stands.step_delta keyed done
      · exact stands.step_stop done
      · obtain ⟨idle,idle',generated,-,rfl⟩ := completed_ok done
        rw [idle',generated,← idle]
        exact stands
      · cases done
      · cases done
        exact stands

theorem after_retain (parts : List StreamPart) : ∀ (seen : List String) (t : Tally), t.after parts ≠ .broken →
    t.after (State.retain seen parts).2 = t.after parts := by
  induction parts with
  | nil => intro seen t _; rfl
  | cons part rest ih =>
    intro seen t whole
    rw [Tally.after_cons] at whole ⊢
    cases part with
    | Source source =>
      have quiet : t.next (.Source source) = t := by
        cases t with
        | running => exact Tally.next_quiet ⟨rfl,rfl⟩ rfl
        | finished => exact absurd (Tally.after_broken rest) whole
        | failed => rfl
        | broken => rfl
      rw [State.retain]
      split_ifs
      · rw [quiet] at whole ⊢
        exact ih seen t whole
      · exact ih _ _ whole
    | _ => exact ih seen _ whole

theorem Stands.whole (stands : Stands config steps generated later t) : t ≠ .broken := by
  cases stands <;> exact Tally.noConfusion

theorem Stands.keyed_or_failed (stands : Stands config steps generated later t) :
    (steps.map (·.1)).Nodup ∨ t = .failed := by
  cases stands with
  | failed => exact .inr rfl
  | running shows_ => exact .inl (nodup_append.mp shows_.indices).1

theorem event_ok {event : JsonValue} (done : s.event config event = (s',.ok parts)) : ∃ next shown,
    s.dispatch config event = (next,.ok shown) ∧ parts = (State.retain next.emitted_sources shown).2 ∧
      s'.open_steps = next.open_steps ∧ s'.generated = next.generated ∧ s'.terminal = next.terminal := by
  unfold State.event at done
  cases dispatched : s.dispatch config event with
  | mk next outcome =>
    rw [dispatched] at done
    cases outcome with
    | error => cases done
    | ok shown =>
      cases done
      exact ⟨next,shown,rfl,rfl,rfl,rfl,rfl⟩

theorem Stands.event {event : JsonValue}
    (stands : Stands config s.open_steps s.generated ((started event).toList ++ later) t)
    (done : s.event config event = (s',.ok parts)) :
    Stands config s'.open_steps s'.generated later (t.after parts) := by
  obtain ⟨_,shown,dispatched,rfl,open_steps,generated,-⟩ := event_ok done
  rcases stands.keyed_or_failed with keyed | rfl
  · have stands := stands.dispatch keyed dispatched
    rw [after_retain shown _ t stands.whole,open_steps,generated]
    exact stands
  · rw [Tally.after_failed]
    exact .failed

def startedBy : ParseResult JsonValue → List (Nat × JsonValue)
  | .Ok event _ => (started event).toList
  | .Err .. => []

theorem Stands.fails (stands : Stands config steps generated later t) (error : ProviderError) :
    t.next (.error error) = .failed := by
  cases stands <;> rfl

theorem Stands.raw (stands : Stands config steps generated later t) (include_raw : Bool) (raw : JsonValue) :
    Stands config steps generated later (t.after (if include_raw then [.Raw raw] else [])) := by
  refine stands.quiet ?_
  intro part mem
  split_ifs at mem
  · obtain rfl := mem_singleton.mp mem
    exact ⟨⟨rfl,rfl⟩,rfl⟩
  · cases mem

theorem Stands.handle (chunk : ParseResult JsonValue) (include_raw : Bool)
    (stands : Stands config s.open_steps s.generated (startedBy chunk ++ later) t) :
    Stands config (s.handle config chunk include_raw).1.open_steps (s.handle config chunk include_raw).1.generated later
      (t.after (s.handle config chunk include_raw).2) := by
  cases chunk with
  | Err =>
    rw [State.handle,Tally.after_cons,stands.fails]
    exact .failed
  | Ok value raw =>
    have shown := stands.raw include_raw raw
    rw [State.handle]
    cases done : s.event config value with
    | mk _ outcome =>
      cases outcome with
      | error =>
        dsimp only
        rw [Tally.after_append,Tally.after_cons,shown.fails]
        exact .failed
      | ok =>
        dsimp only
        rw [Tally.after_append]
        exact shown.event done

/-! ### Runs -/

def State.after (config : Config) (include_raw : Bool) (s : State) (chunks : List (ParseResult JsonValue)) : State :=
  chunks.foldl (fun s chunk => (s.handle config chunk include_raw).1) s

def Completes (config : Config) (include_raw : Bool) (s : State) (chunks : List (ParseResult JsonValue)) : Prop :=
  ∃ before event raw kind, chunks = before ++ [.Ok event raw] ∧ event.text "event_type" = some kind ∧
    State.isCompletion kind = true ∧ (s.after config include_raw before).open_steps = []

def Ends (config : Config) (include_raw : Bool) (s : State) (chunks : List (ParseResult JsonValue)) (t : Tally) : Prop :=
  t = .failed ∨ (t = .finished ∧ Completes config include_raw s chunks)

/-! An event that is not terminal leaves the flag. -/

theorem begin_step_terminal (step : JsonValue) (kind : String) :
    (s.begin_step config index step kind).1.terminal = s.terminal := by
  unfold State.begin_step
  dsimp only
  split_ifs
  · rfl
  · split <;> rfl
  · split <;> rfl
  · rfl

theorem feed_terminal (delta : JsonValue) (kind : String) :
    (s.feed config index opened delta kind).1.terminal = s.terminal := by
  unfold State.feed
  dsimp only
  split_ifs
  · rfl
  · rfl
  · rfl
  · unfold State.arguments_delta
    dsimp only
    split <;> rfl
  · unfold State.block_delta
    dsimp only
    split <;> rfl
  · rfl
  · rfl
  · rfl

theorem close_terminal : (s.close config opened).1.terminal = s.terminal := by
  unfold State.close
  dsimp only
  split_ifs
  · rfl
  · rfl
  · rfl
  · unfold State.end_call
    split
    · rfl
    · dsimp only
      split <;> rfl
  · split <;> rfl

theorem dispatch_terminal {event : JsonValue} (open_ : isTerminal event = false) :
    (s.dispatch config event).1.terminal = s.terminal := by
  unfold State.dispatch
  cases typed : event.text "event_type" with
  | none => rfl
  | some kind =>
    have noCompletion : ¬ State.isCompletion kind = true := by
      rw [isTerminal,typed] at open_
      simp only [Bool.or_eq_false_iff] at open_
      rw [open_.1]
      exact Bool.false_ne_true
    dsimp only
    rw [if_neg noCompletion]
    split_ifs
    · rfl
    · unfold State.step_start
      split
      · rfl
      · split_ifs
        · rfl
        · dsimp only
          split
          · rfl
          · exact begin_step_terminal _ _
    · unfold State.step_delta
      split
      · rfl
      · split
        · rfl
        · dsimp only
          split
          · rfl
          · exact feed_terminal _ _
    · unfold State.step_stop
      split
      · rfl
      · split
        · rfl
        · exact close_terminal
    · rfl
    · rfl

theorem Ends.cons {chunk : ParseResult JsonValue} {chunks : List (ParseResult JsonValue)} {include_raw : Bool}
    (ends : Ends config include_raw (s.handle config chunk include_raw).1 chunks t) :
    Ends config include_raw s (chunk :: chunks) t := by
  rcases ends with failed | ⟨finished,before,event,raw,kind,rfl,typed,completion,idle⟩
  · exact .inl failed
  · exact .inr ⟨finished,chunk :: before,event,raw,kind,rfl,typed,completion,idle⟩

theorem completion_ok {event : JsonValue} (terminal : isTerminal event = true)
    (done : s.event config event = (s',.ok parts)) :
    (∃ kind, event.text "event_type" = some kind ∧ State.isCompletion kind = true) ∧ s.open_steps = [] ∧
      s'.open_steps = [] ∧ s'.terminal = true := by
  obtain ⟨next,shown,dispatched,-,open_steps,-,flag⟩ := event_ok done
  rw [isTerminal] at terminal
  unfold State.dispatch at dispatched
  cases typed : event.text "event_type" with
  | none =>
    rw [typed] at terminal
    cases terminal
  | some kind =>
    rw [typed] at terminal dispatched
    dsimp only at terminal dispatched
    by_cases completion : State.isCompletion kind = true
    · have named : kind = "interaction.completed" ∨ kind = "interaction.complete" := by
        simpa [State.isCompletion] using completion
      have completes : s.completed event = (next,.ok shown) := by
        rcases named with rfl | rfl <;> simpa [completion] using dispatched
      obtain ⟨idle,idle',-,ended,-⟩ := completed_ok completes
      exact ⟨⟨kind,rfl,completion⟩,idle,open_steps.trans idle',flag.trans ended⟩
    · have failure : kind = "error" := by simpa [completion] using terminal
      subst failure
      simp [State.isCompletion,State.bad] at dispatched

theorem Stands.finish (stands : Stands config [] generated later t) (terminal : s.terminal = true) :
    t.after (s.finish config) = .failed ∨ t.after (s.finish config) = .finished := by
  rw [State.finish,if_pos terminal,Tally.after_cons,Tally.after_nil]
  cases stands with
  | failed => exact .inl rfl
  | @running opens _ _ shows_ =>
    have nothing : opens = ∅ := shows_.keys
    rw [Tally.next_finish,if_pos nothing]
    exact .inr rfl

theorem Stands.outputs (include_raw : Bool) (chunks : List (ParseResult JsonValue)) : ∀ {s : State} {t : Tally},
    s.terminal = false → Stands config s.open_steps s.generated (startedSteps (terminal_chunks chunks)) t →
    Ends config include_raw s (terminal_chunks chunks)
      (t.after (outputs (State.machine config) include_raw s (terminal_chunks chunks))) := by
  induction chunks with
  | nil =>
    intro s t idle stands
    have early : Stream.outputs (State.machine config) include_raw s (terminal_chunks []) =
        [.error (bad_response "interactions stream ended before a terminal event")] := by
      simp [terminal_chunks,Stream.outputs,State.machine,State.finish,idle]
    rw [early,Tally.after_cons,Tally.after_nil]
    cases stands <;> exact .inl rfl
  | cons chunk _ ih =>
    intro s t idle stands
    have stepped (later : List (ParseResult JsonValue)) :
        Stream.outputs (State.machine config) include_raw s (chunk :: later) =
          (s.handle config chunk include_raw).2 ++
            Stream.outputs (State.machine config) include_raw (s.handle config chunk include_raw).1 later := rfl
    cases chunk with
    | Err error raw =>
      have failing : t.after (s.handle config (.Err error raw) include_raw).2 = .failed := stands.fails _
      rw [terminal_chunks,stepped,Tally.after_append,failing,Tally.after_failed]
      exact .inl rfl
    | Ok event raw =>
      have handled := Stands.handle (.Ok event raw) include_raw stands
      rw [terminal_chunks,stepped,Tally.after_append]
      cases done : s.event config event with
      | mk s' outcome =>
        cases outcome with
        | error =>
          have failing : t.after (s.handle config (.Ok event raw) include_raw).2 = .failed := by
            rw [State.handle,done]
            dsimp only
            rw [Tally.after_append]
            exact (stands.raw include_raw raw).fails _
          rw [failing,Tally.after_failed]
          exact .inl rfl
        | ok =>
          have next : (s.handle config (.Ok event raw) include_raw).1 = s' := by
            rw [State.handle,done]
          by_cases terminal : isTerminal event = true
          · obtain ⟨⟨kind,typed,completion⟩,before,after,flag⟩ := completion_ok terminal done
            rw [next,after] at handled
            rw [if_pos terminal,next]
            rcases handled.finish flag with failed | finished
            · exact .inl failed
            · exact .inr ⟨finished,[],event,raw,kind,rfl,typed,completion,before⟩
          · rw [if_neg terminal] at handled ⊢
            obtain ⟨_,_,took,-,-,-,flag⟩ := event_ok done
            have kept := @dispatch_terminal config s event (Bool.not_eq_true _ ▸ terminal)
            refine Ends.cons (ih ?_ handled)
            rw [next,flag]
            rw [took] at kept
            exact kept.trans idle

end

/-- Whatever the events, the driven stream obeys the contract, and it finishes only after a completion that
    found no step open. -/
theorem interactions_stream_obeys {config : Config} (chunks : List (ParseResult JsonValue))
    (indices : ((startedSteps (terminal_chunks chunks)).map (·.1)).Nodup)
    (apart : Apart config.toConfig (callIds (startedSteps (terminal_chunks chunks))))
    (aliases : List (String × String)) (interaction : JsonValue) (warnings : List Warning) (include_raw : Bool) :
    StreamContractChecker.check (drive_stream (.StreamStart warnings) (terminal_chunks chunks) (State.machine config)
        ((State.new aliases).with_interaction interaction) include_raw) = .ok () ∧
      ∀ reason usage metadata, .Finish reason usage metadata ∈ drive_stream (.StreamStart warnings)
          (terminal_chunks chunks) (State.machine config) ((State.new aliases).with_interaction interaction) include_raw →
        Completes config include_raw ((State.new aliases).with_interaction interaction) (terminal_chunks chunks) := by
  have start : Stands config [] 0 (startedSteps (terminal_chunks chunks)) (.running ∅ [] []) := .running {
    keys := rfl
    once := nodup_nil
    taken := fun key member => absurd member not_mem_nil
    indices
    named := fun entry member => absurd member not_mem_nil
    mute := fun entry member => absurd member not_mem_nil
    ahead := fun entry _ => not_mem_nil
    apart
    unused := ⟨fun n _ => not_mem_nil,fun id _ => not_mem_nil⟩ }
  have ends := Stands.outputs (s := (State.new aliases).with_interaction interaction) include_raw chunks rfl start
  constructor
  · refine check_ok_of_tally _ _ warnings _ include_raw ?_
    rcases ends with failed | ⟨finished,-⟩
    · exact .inr failed
    · exact .inl finished
  · intro reason usage metadata member
    rw [drive_stream,drive_eq] at member
    have shown : .Finish reason usage metadata ∈ live (outputs (State.machine config) include_raw
        ((State.new aliases).with_interaction interaction) (terminal_chunks chunks)) := by
      rcases mem_cons.mp member with bad | driven
      · cases bad
      · exact Tally.finish_live _ _ _ _ _ driven
    rcases ends with failed | ⟨-,completes⟩
    · exact absurd shown (Tally.failed_no_finish _ _ Tally.noConfusion failed reason usage metadata)
    · exact completes

def exampleConfig : Config where
  toConfig := Google.exampleConfig
  name := "google"
  parse_url := some
  parse_json _ := some (.object [])

def exampleEvent (kind : String) (fields : JsonObject) : ParseResult JsonValue :=
  .Ok (.object (("event_type",.string kind) :: fields)) .null

def exampleIndex (index : UInt64) : String × JsonValue := ("index",.number (.PosInt index))

def exampleChunks : List (ParseResult JsonValue) :=
  [exampleEvent "step.start" [exampleIndex 0,("step",.object [("type",.string "model_output")])],
    exampleEvent "step.start" [exampleIndex 1,("step",.object [("type",.string "function_call"),("id",.string "a"),
      ("name",.string "weather")])],
    exampleEvent "step.delta" [exampleIndex 0,("delta",.object [("type",.string "text"),("text",.string "Hi")])],
    exampleEvent "step.stop" [exampleIndex 1],
    exampleEvent "step.stop" [exampleIndex 0],
    exampleEvent "interaction.completed" [("interaction",.object [("status",.string "completed")])]]

theorem interactions_stream_obeys_of_call :
    StreamContractChecker.check (drive_stream (.StreamStart []) (terminal_chunks exampleChunks)
      (State.machine exampleConfig) ((State.new []).with_interaction (.object [])) false) = .ok () := by
  have indices : (startedSteps (terminal_chunks exampleChunks)).map (·.1) = [0,1] := by decide
  have carried : callIds (startedSteps (terminal_chunks exampleChunks)) = ["a"] := by decide
  refine (interactions_stream_obeys exampleChunks ?_ ⟨strokes_injective,?_,?_⟩ [] (.object []) [] false).1
  · rw [indices]
    decide
  · rw [carried]
    decide
  · rw [carried]
    intro id member n
    obtain rfl := mem_singleton.mp member
    exact strokes_ne (c := 'a') (by decide) (by decide) n

end Google.Interactions

end Ferrin
