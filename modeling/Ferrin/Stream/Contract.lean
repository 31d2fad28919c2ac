import Ferrin.Library.Brackets
import Ferrin.LanguageModel

/-!
The contract of a provider stream and its checker. A stream is a start, a body
of well-bracketed parts under fresh ids, and one terminal part. The checker
accepts exactly these streams (`check_ok_iff`).
-/
namespace Ferrin.Stream
open Ferrin.Brackets List StreamPart

structure ContractViolation where
  index : Nat
  message : String
  deriving DecidableEq

structure StreamContractChecker where
  index : Nat
  started : Bool
  terminated : Bool
  seen_parts : List PartId
  seen_tool_inputs : List ToolCallId
  open_text : List PartId
  open_reasoning : List PartId
  open_tool_inputs : List ToolCallId
  violations : List ContractViolation

namespace StreamContractChecker

def new : StreamContractChecker := ⟨0,false,false,[],[],[],[],[],[]⟩

def violation (c : StreamContractChecker) (message : String) : StreamContractChecker :=
  { c with violations := c.violations ++ [⟨c.index,message⟩] }

/-- `HashSet::remove`. -/
def remove (set : List String) (id : String) : List String := set.filter (· ≠ id)

def isStreamStart : StreamPart → Bool
  | .StreamStart _ => true
  | _ => false

/-- The message for a part that breaks the rule of its kind. -/
def broken (c : StreamContractChecker) : StreamPart → Option String
  | .StreamStart _ => if c.started then some "duplicate stream-start" else none
  | .TextStart id _ => if id ∈ c.seen_parts then some s!"text part `{id}` started twice" else none
  | .TextDelta id _ _ => if id ∈ c.open_text then none else some s!"text-delta for closed part `{id}`"
  | .TextEnd id _ => if id ∈ c.open_text then none else some s!"text-end for closed part `{id}`"
  | .ReasoningStart id _ => if id ∈ c.seen_parts then some s!"reasoning part `{id}` started twice" else none
  | .ReasoningDelta id _ _ =>
    if id ∈ c.open_reasoning then none else some s!"reasoning-delta for closed part `{id}`"
  | .ReasoningEnd id _ => if id ∈ c.open_reasoning then none else some s!"reasoning-end for closed part `{id}`"
  | .ToolInputStart id .. => if id ∈ c.seen_tool_inputs then some s!"tool input `{id}` started twice" else none
  | .ToolInputDelta id _ _ =>
    if id ∈ c.open_tool_inputs then none else some s!"tool-input-delta for unknown tool input `{id}`"
  | .ToolInputEnd id _ =>
    if id ∈ c.open_tool_inputs then none else some s!"tool-input-end for unknown tool input `{id}`"
  | _ => none

def keep (c : StreamContractChecker) : StreamPart → StreamContractChecker
  | .StreamStart _ => { c with started := true }
  | .TextStart id _ => { c with open_text := c.open_text.insert id,seen_parts := c.seen_parts.insert id }
  | .TextEnd id _ => { c with open_text := remove c.open_text id }
  | .ReasoningStart id _ =>
    { c with open_reasoning := c.open_reasoning.insert id,seen_parts := c.seen_parts.insert id }
  | .ReasoningEnd id _ => { c with open_reasoning := remove c.open_reasoning id }
  | .ToolInputStart id .. =>
    { c with
      open_tool_inputs := c.open_tool_inputs.insert id
      seen_tool_inputs := c.seen_tool_inputs.insert id }
  | .ToolInputEnd id _ => { c with open_tool_inputs := remove c.open_tool_inputs id }
  | .Finish .. | .Error .. => { c with terminated := true }
  | _ => c

def messages (c : StreamContractChecker) (part : StreamPart) : List String :=
  (if c.index = 0 ∧ ¬ isStreamStart part then [s!"stream must start with stream-start, got {part.kind_name}"] else []) ++
    (if c.terminated then [s!"{part.kind_name} after the terminal part"] else []) ++ (c.broken part).toList

def observe (c : StreamContractChecker) (part : StreamPart) : StreamContractChecker :=
  { (c.messages part).foldl violation (c.keep part) with index := c.index + 1 }

def finish (c : StreamContractChecker) : Except (List ContractViolation) Unit :=
  let c :=
    if c.index = 0 then c.violation "stream is empty"
    else if ¬ c.terminated then c.violation "stream ended without finish or error"
    else c
  let c := (c.open_text.map fun id => s!"text part `{id}` never ended").foldl violation c
  let c := (c.open_reasoning.map fun id => s!"reasoning part `{id}` never ended").foldl violation c
  let c := (c.open_tool_inputs.map fun id => s!"tool input `{id}` never ended").foldl violation c
  if c.violations = [] then .ok () else .error c.violations

def check (parts : List StreamPart) : Except (List ContractViolation) Unit := (parts.foldl observe new).finish

end StreamContractChecker

/-! ### The contract -/

/-- What can be open in a stream. -/
inductive PartKey where
  | text (id : PartId)
  | reasoning (id : PartId)
  | toolInput (id : ToolCallId)
  deriving DecidableEq

def mark : StreamPart → Option (Mark PartKey)
  | .TextStart id _ => some (.opens (.text id))
  | .TextDelta id _ _ => some (.within (.text id))
  | .TextEnd id _ => some (.closes (.text id))
  | .ReasoningStart id _ => some (.opens (.reasoning id))
  | .ReasoningDelta id _ _ => some (.within (.reasoning id))
  | .ReasoningEnd id _ => some (.closes (.reasoning id))
  | .ToolInputStart id .. => some (.opens (.toolInput id))
  | .ToolInputDelta id _ _ => some (.within (.toolInput id))
  | .ToolInputEnd id _ => some (.closes (.toolInput id))
  | _ => none

def marks (parts : List StreamPart) : List (Mark PartKey) := parts.filterMap mark

def partId : StreamPart → Option PartId
  | .TextStart id _ | .ReasoningStart id _ => some id
  | _ => none

def toolInputId : StreamPart → Option ToolCallId
  | .ToolInputStart id .. => some id
  | _ => none

def Inner (part : StreamPart) : Prop := part.isTerminal = false ∧ StreamContractChecker.isStreamStart part = false

theorem opens_names {part : StreamPart} {key : PartKey} (marked : mark part = some (.opens key)) : Inner part ∧
    partId part = (match key with | .toolInput _ => none | .text id | .reasoning id => some id) ∧
    toolInputId part = match key with | .toolInput id => some id | _ => none := by
  cases part <;> cases marked <;> exact ⟨⟨rfl,rfl⟩,rfl,rfl⟩

/-- A body and the terminal part after it, when `s` is open already. -/
structure Ends (s : Finset PartKey) (body : List StreamPart) (last : StreamPart) : Prop where
  inner : ∀ part ∈ body, Inner part
  terminal : last.isTerminal = true
  bracketed : run s (marks body) = some ∅

def Obeys (parts : List StreamPart) : Prop :=
  ∃ warnings body last, parts = .StreamStart warnings :: (body ++ [last]) ∧ Ends ∅ body last ∧
    (body.filterMap partId).Nodup ∧ (body.filterMap toolInputId).Nodup

theorem Obeys.terminal_last {warnings : List Warning} {before after : List StreamPart} {part : StreamPart}
    (obeys : Obeys (.StreamStart warnings :: (before ++ part :: after))) (terminal : part.isTerminal = true) :
    after = [] := by
  obtain ⟨_,_,_,whole,ends,-,-⟩ := obeys
  have same := (List.cons.inj whole).2
  rcases eq_nil_or_concat after with none | ⟨_,_,rfl⟩
  · exact none
  · rw [concat_eq_append,← cons_append,← append_assoc] at same
    obtain ⟨rfl,-⟩ := append_inj' same rfl
    have ordinary := (ends.inner part (by simp)).1
    rw [terminal] at ordinary
    cases ordinary

theorem Obeys.has_terminal {warnings : List Warning} {body : List StreamPart}
    (obeys : Obeys (.StreamStart warnings :: body)) : ∃ part ∈ body, part.isTerminal = true := by
  obtain ⟨_,_,last,whole,ends,-,-⟩ := obeys
  obtain rfl := (List.cons.inj whole).2
  exact ⟨last,by simp,ends.terminal⟩

open StreamContractChecker

section
variable {c : StreamContractChecker} {s : Finset PartKey} {part : StreamPart}

structure Tracks (c : StreamContractChecker) (s : Finset PartKey) : Prop where
  text : ∀ id, .text id ∈ s ↔ id ∈ c.open_text
  reasoning : ∀ id, .reasoning id ∈ s ↔ id ∈ c.open_reasoning
  toolInput : ∀ id, .toolInput id ∈ s ↔ id ∈ c.open_tool_inputs
  seenText : ∀ id ∈ c.open_text, id ∈ c.seen_parts
  seenReasoning : ∀ id ∈ c.open_reasoning, id ∈ c.seen_parts
  seenToolInput : ∀ id ∈ c.open_tool_inputs, id ∈ c.seen_tool_inputs

def stepPart (s : Finset PartKey) (part : StreamPart) : Option (Finset PartKey) :=
  match mark part with
  | none => some s
  | some m => step s m

theorem run_marks_cons (part : StreamPart) (rest : List StreamPart) :
    run s (marks (part :: rest)) = (stepPart s part).bind (run · (marks rest)) := by
  unfold marks stepPart
  rw [filterMap_cons]
  cases mark part <;> rfl

theorem Tracks.broken_iff (tracks : Tracks c s) (inner : Inner part) : c.broken part = none ↔
    (∃ t, stepPart s part = some t) ∧ (∀ id, partId part = some id → id ∉ c.seen_parts) ∧
      ∀ id, toolInputId part = some id → id ∉ c.seen_tool_inputs := by
  obtain ⟨_,_,_,seenText,seenReasoning,seenToolInput⟩ := tracks
  cases part <;>
    simp_all [broken,stepPart,mark,step,partId,toolInputId,Inner,isTerminal,isStreamStart]
  case TextStart id _ => exact fun fresh isOpen => fresh (seenText id isOpen)
  case ReasoningStart id _ => exact fun fresh isOpen => fresh (seenReasoning id isOpen)
  case ToolInputStart id _ _ _ _ _ => exact fun fresh isOpen => fresh (seenToolInput id isOpen)

theorem Tracks.keep (tracks : Tracks c s) {t : Finset PartKey} (marked : stepPart s part = some t) :
    Tracks (c.keep part) t := by
  obtain ⟨_,_,_,_,_,_⟩ := tracks
  cases part <;> simp [stepPart,mark,step] at marked
  all_goals try (obtain ⟨-,rfl⟩ := marked)
  all_goals constructor <;> simp_all [StreamContractChecker.keep,remove] <;> grind

theorem keep_seen (inner : Inner part) :
    (∀ id, id ∈ (c.keep part).seen_parts ↔ partId part = some id ∨ id ∈ c.seen_parts) ∧
      ∀ id, id ∈ (c.keep part).seen_tool_inputs ↔ toolInputId part = some id ∨ id ∈ c.seen_tool_inputs := by
  cases part <;>
    simp_all [StreamContractChecker.keep,partId,toolInputId,Inner,isTerminal,isStreamStart,eq_comm]

/-- A checker in the body of a stream, with nothing to complain about. -/
structure Running (c : StreamContractChecker) : Prop where
  begun : c.index ≠ 0
  started : c.started = true
  unfinished : c.terminated = false
  clean : c.violations = []

theorem foldl_violation (messages : List String) : ∀ c : StreamContractChecker, messages.foldl violation c =
    { c with violations := c.violations ++ messages.map fun message => ⟨c.index,message⟩ } := by
  induction messages with
  | nil => intro c; simp
  | cons _ _ ih => intro c; simp [ih,violation]

theorem observe_dirty (dirty : c.violations ≠ []) : (c.observe part).violations ≠ [] := by
  have kept : (c.keep part).violations = c.violations := by cases part <;> rfl
  simp [observe,foldl_violation,kept,dirty]

theorem finish_dirty (dirty : c.violations ≠ []) : c.finish ≠ .ok () := by
  unfold finish
  simp only [foldl_violation]
  split_ifs <;> simp_all [violation]

variable (parts : List StreamPart)

theorem fold_dirty : ∀ c : StreamContractChecker, c.violations ≠ [] →
    (parts.foldl observe c).finish ≠ .ok () := by
  induction parts with
  | nil => intro c dirty; exact finish_dirty dirty
  | cons _ _ ih => intro c dirty; exact ih _ (observe_dirty dirty)

theorem keep_fields (inner : Inner part) : (c.keep part).started = c.started ∧
    (c.keep part).terminated = c.terminated ∧ (c.keep part).violations = c.violations := by
  cases part <;> simp_all [StreamContractChecker.keep,Inner,isTerminal,isStreamStart]

theorem Running.observe (running : Running c) (inner : Inner part) (allowed : c.broken part = none) :
    c.observe part = { c.keep part with index := c.index + 1 } ∧ Running (c.observe part) := by
  have silent : c.messages part = [] := by simp [messages,running.begun,running.unfinished,allowed]
  have next : c.observe part = { c.keep part with index := c.index + 1 } := by
    rw [StreamContractChecker.observe,silent]
    rfl
  obtain ⟨started,terminated,violations⟩ := keep_fields (c := c) inner
  refine ⟨next,?_⟩
  rw [next]
  exact ⟨Nat.succ_ne_zero _,started.trans running.started,terminated.trans running.unfinished,
    violations.trans running.clean⟩

theorem observe_broken (complaint : c.messages part ≠ []) : (c.observe part).violations ≠ [] := by
  simp [StreamContractChecker.observe,foldl_violation,complaint]

/-- What the checker accepts from a point in the body on, by the parts to come:
    `s` is open, and the ids in `seen` and `seenTools` are taken. -/
def Accepts : Finset PartKey → Set PartId → Set ToolCallId → List StreamPart → Prop
  | _, _, _, [] => False
  | s, seen, seenTools, part :: rest =>
    (part.isTerminal ∧ rest = [] ∧ s = ∅) ∨
      (Inner part ∧ (∀ id, partId part = some id → id ∉ seen) ∧ (∀ id, toolInputId part = some id → id ∉ seenTools) ∧
        ∃ t, stepPart s part = some t ∧
          Accepts t ({ id | partId part = some id } ∪ seen) ({ id | toolInputId part = some id } ∪ seenTools) rest)

theorem Tracks.empty_iff (tracks : Tracks c s) :
    c.open_text = [] ∧ c.open_reasoning = [] ∧ c.open_tool_inputs = [] ↔ s = ∅ := by
  obtain ⟨text,reasoning,toolInput,-,-,-⟩ := tracks
  simp only [eq_nil_iff_forall_not_mem,Finset.eq_empty_iff_forall_notMem]
  constructor
  · rintro ⟨noText,noReasoning,noTool⟩ key
    cases key with
    | text id => rw [text]; exact noText id
    | reasoning id => rw [reasoning]; exact noReasoning id
    | toolInput id => rw [toolInput]; exact noTool id
  · intro none
    exact ⟨fun id => mt (text id).mpr (none _),fun id => mt (reasoning id).mpr (none _),
      fun id => mt (toolInput id).mpr (none _)⟩

theorem finish_terminal (running : Running c) (tracks : Tracks c s) (terminal : part.isTerminal = true) :
    (c.observe part).finish = .ok () ↔ s = ∅ := by
  have next : c.observe part = { c with index := c.index + 1,terminated := true } := by
    cases part <;>
      simp_all [isTerminal,StreamContractChecker.observe,messages,running.begun,running.unfinished,broken,
        StreamContractChecker.keep]
  rw [next,← tracks.empty_iff]
  simp only [finish,foldl_violation,running.clean]
  simp

theorem fold_terminated (terminal : part.isTerminal = true) (next : StreamPart)
    (rest : List StreamPart) : ((part :: next :: rest).foldl observe c).finish ≠ .ok () := by
  have done : (c.observe part).terminated = true := by
    cases part <;> simp_all [isTerminal,StreamContractChecker.observe,foldl_violation,StreamContractChecker.keep]
  exact fold_dirty rest _ (observe_broken (by simp [messages,done]))

theorem fold_ok_iff : ∀ (c : StreamContractChecker) (s : Finset PartKey),
    Running c → Tracks c s → ((parts.foldl observe c).finish = .ok () ↔
      Accepts s { id | id ∈ c.seen_parts } { id | id ∈ c.seen_tool_inputs } parts) := by
  induction parts with
  | nil =>
    intro c s running _
    have open_ : c.finish ≠ .ok () := by
      simp only [finish,foldl_violation,violation,running.begun,running.unfinished]
      simp
    exact iff_of_false open_ id
  | cons part rest ih =>
    intro c s running tracks
    by_cases terminal : part.isTerminal = true
    · have outer : ¬ Inner part := fun inner => by rw [inner.1] at terminal; cases terminal
      cases rest with
      | nil =>
        rw [foldl_cons,foldl_nil,finish_terminal running tracks terminal]
        simp [Accepts,terminal,outer]
      | cons next rest =>
        refine iff_of_false (fold_terminated terminal next rest) ?_
        simp [Accepts,outer]
    · by_cases start : isStreamStart part = true
      · have outer : ¬ Inner part := fun inner => by rw [inner.2] at start; cases start
        refine iff_of_false (fold_dirty rest _ (observe_broken ?_)) (by simp [Accepts,terminal,outer])
        cases part <;> simp_all [isStreamStart,messages,broken,running.started]
      · have inner : Inner part := ⟨by simpa using terminal,by simpa using start⟩
        by_cases allowed : c.broken part = none
        · obtain ⟨next,continues⟩ := running.observe inner allowed
          obtain ⟨⟨t,marked⟩,fresh,freshTool⟩ := (tracks.broken_iff inner).mp allowed
          have tracked : Tracks (c.observe part) t := by
            obtain ⟨text,reasoning,toolInput,seenText,seenReasoning,seenToolInput⟩ := tracks.keep marked
            rw [next]
            exact ⟨text,reasoning,toolInput,seenText,seenReasoning,seenToolInput⟩
          have seen : { id | id ∈ (c.observe part).seen_parts } = { id | partId part = some id } ∪ { id | id ∈ c.seen_parts } := by
            ext id
            rw [next]
            exact (keep_seen inner).1 id
          have seenTools : { id | id ∈ (c.observe part).seen_tool_inputs } =
              { id | toolInputId part = some id } ∪ { id | id ∈ c.seen_tool_inputs } := by
            ext id
            rw [next]
            exact (keep_seen inner).2 id
          rw [foldl_cons,ih _ t continues tracked,seen,seenTools]
          constructor
          · intro later
            exact .inr ⟨inner,fresh,freshTool,t,marked,later⟩
          · rintro (⟨ends,-,-⟩ | ⟨-,-,-,_,marked',later⟩)
            · exact absurd ends terminal
            · rw [marked] at marked'
              cases marked'
              exact later
        · refine iff_of_false (fold_dirty rest _ (observe_broken ?_)) ?_
          · cases complaint : c.broken part with
            | none => exact absurd complaint allowed
            | some => simp [messages,complaint]
          · rintro (⟨ends,-,-⟩ | ⟨-,fresh,freshTool,t,marked,-⟩)
            · exact terminal ends
            · exact allowed ((tracks.broken_iff inner).mpr ⟨⟨t,marked⟩,fresh,freshTool⟩)

theorem Ends.cons_iff {body : List StreamPart} {last : StreamPart} :
    Ends s (part :: body) last ↔ Inner part ∧ ∃ t, stepPart s part = some t ∧ Ends t body last := by
  constructor
  · rintro ⟨inner,terminal,bracketed⟩
    rw [run_marks_cons,Option.bind_eq_some_iff] at bracketed
    obtain ⟨t,marked,later⟩ := bracketed
    exact ⟨inner part mem_cons_self,t,marked,fun p m => inner p (mem_cons_of_mem _ m),terminal,later⟩
  · rintro ⟨inner,t,marked,later⟩
    refine ⟨?_,later.terminal,?_⟩
    · intro p mem
      rcases List.mem_cons.mp mem with rfl | deeper
      · exact inner
      · exact later.inner p deeper
    · rw [run_marks_cons,marked]
      exact later.bracketed

/-- Ids that are all new, each used once. -/
def Fresh (seen : Set String) (ids : List String) : Prop := ids.Nodup ∧ ∀ id ∈ ids, id ∉ seen

theorem Fresh.cons_iff {seen : Set String} {first : Option String} {ids : List String} :
    Fresh seen (first.toList ++ ids) ↔ (∀ id, first = some id → id ∉ seen) ∧ Fresh ({ id | first = some id } ∪ seen) ids := by
  cases first with
  | none => simp [Fresh]
  | some id =>
    simp only [Fresh,Option.toList_some,singleton_append,nodup_cons,mem_cons,Option.some.injEq,
      Set.mem_union,Set.mem_ofPred_eq,not_or,forall_eq_or_imp,forall_eq']
    constructor
    · rintro ⟨⟨absent,once⟩,fresh,freshLater⟩
      exact ⟨fresh,once,fun other mem => ⟨fun same => absent (same ▸ mem),freshLater other mem⟩⟩
    · rintro ⟨fresh,once,later⟩
      exact ⟨⟨fun mem => (later id mem).1 rfl,once⟩,fresh,fun other mem => (later other mem).2⟩

theorem filterMap_cons_toList {f : StreamPart → Option String} (rest : List StreamPart) :
    (part :: rest).filterMap f = (f part).toList ++ rest.filterMap f := by
  rw [filterMap_cons]
  cases f part <;> rfl

theorem accepts_iff : ∀ (s : Finset PartKey) (seen : Set PartId) (seenTools : Set ToolCallId),
    Accepts s seen seenTools parts ↔ ∃ body last, parts = body ++ [last] ∧ Ends s body last ∧
      Fresh seen (body.filterMap partId) ∧ Fresh seenTools (body.filterMap toolInputId) := by
  induction parts with
  | nil => intro s seen seenTools; simp [Accepts]
  | cons part _ ih =>
    intro s seen seenTools
    constructor
    · rintro (⟨terminal,rfl,rfl⟩ | ⟨inner,fresh,freshTool,t,marked,later⟩)
      · exact ⟨[],part,rfl,⟨by simp,terminal,rfl⟩,by simp [Fresh],by simp [Fresh]⟩
      · obtain ⟨body,last,rfl,ends,ids,toolIds⟩ := (ih _ _ _).mp later
        refine ⟨part :: body,last,rfl,Ends.cons_iff.mpr ⟨inner,t,marked,ends⟩,?_,?_⟩
        · rw [filterMap_cons_toList]
          exact Fresh.cons_iff.mpr ⟨fresh,ids⟩
        · rw [filterMap_cons_toList]
          exact Fresh.cons_iff.mpr ⟨freshTool,toolIds⟩
    · rintro ⟨body,last,whole,ends,ids,toolIds⟩
      cases body with
      | nil =>
        cases whole
        have closed : s = ∅ := by simpa [marks] using ends.bracketed
        exact .inl ⟨ends.terminal,rfl,closed⟩
      | cons _ body =>
        obtain ⟨rfl,rfl⟩ := List.cons.inj whole
        obtain ⟨inner,t,marked,later⟩ := Ends.cons_iff.mp ends
        rw [filterMap_cons_toList] at ids toolIds
        obtain ⟨fresh,idsLater⟩ := Fresh.cons_iff.mp ids
        obtain ⟨freshTool,toolIdsLater⟩ := Fresh.cons_iff.mp toolIds
        exact .inr ⟨inner,fresh,freshTool,t,marked,(ih _ _ _).mpr ⟨body,last,rfl,later,idsLater,toolIdsLater⟩⟩

end

theorem check_ok_iff (parts : List StreamPart) : check parts = .ok () ↔ Obeys parts := by
  cases parts with
  | nil =>
    refine iff_of_false (fun accepted => by cases accepted) ?_
    rintro ⟨warnings,body,last,whole,-⟩
    cases whole
  | cons first rest =>
    by_cases start : isStreamStart first = true
    · obtain ⟨warnings,rfl⟩ : ∃ warnings, first = .StreamStart warnings := by
        cases first <;> simp_all [isStreamStart]
      have running : Running (new.observe (.StreamStart warnings)) := ⟨Nat.succ_ne_zero 0,rfl,rfl,rfl⟩
      have tracks : Tracks (new.observe (.StreamStart warnings)) ∅ := by
        constructor <;> simp [observe,messages,broken,isStreamStart,new,StreamContractChecker.keep]
      rw [check,foldl_cons,fold_ok_iff rest _ ∅ running tracks,accepts_iff]
      constructor
      · rintro ⟨body,last,rfl,ends,ids,toolIds⟩
        exact ⟨warnings,body,last,rfl,ends,ids.1,toolIds.1⟩
      · rintro ⟨_,body,last,whole,ends,ids,toolIds⟩
        refine ⟨body,last,(List.cons.inj whole).2,ends,⟨ids,?_⟩,⟨toolIds,?_⟩⟩
        · intro id _
          exact not_mem_nil
        · intro id _
          exact not_mem_nil
    · refine iff_of_false (fold_dirty rest _ (observe_broken ?_)) ?_
      · simp [messages,new,start]
      · rintro ⟨_,_,_,whole,-⟩
        cases whole
        exact start rfl

end Ferrin.Stream
