import Ferrin.Middleware.ReasoningSections
import Ferrin.Stream.Contract

/-!
The extractions of a stream of text parts. Every text part is told by its
sections, however the parts interleave and wherever their deltas are cut
(`emitted_told`).
-/
namespace Ferrin.Middleware
open List StreamState Assoc
open Ferrin.Brackets (run step run_append)
open Ferrin.Stream (PartKey mark marks partId)
open Extraction (begun whole)

def textId : StreamPart → Option PartId
  | .TextStart id _ | .TextDelta id _ _ | .TextEnd id _ => some id
  | _ => none

structure TextStream (input : List StreamPart) : Prop where
  texts : ∀ part ∈ input, (textId part).isSome
  bracketed : (run ∅ (marks input)).isSome
  fresh : (input.filterMap partId).Nodup

def textOf (id : PartId) (input : List StreamPart) : List Char :=
  input.flatMap fun
    | .TextDelta other delta _ => if other = id then delta.toList else []
    | _ => []

def ExtractReasoning.emitted (config : ExtractReasoning) (input : List StreamPart) (id : PartId) : List StreamPart :=
  let (s,out) := StreamState.new.process_all config input
  (out.filter (textId ·.1 = some id)).flatMap (·.2) ++ ((s.closings config).2.filter (·.1 = id)).flatMap (·.2)

section
variable {config : ExtractReasoning}

/-! ### Runs -/

inductive Admitted (s : StreamState) (before : List StreamPart) : StreamPart → Prop
  | start {id metadata} (absent : s.extractions.lookup id = none) (new : id ∉ before.filterMap partId) :
      Admitted s before (.TextStart id metadata)
  | delta {id delta metadata e} (known : s.extractions.lookup id = some e) : Admitted s before (.TextDelta id delta metadata)
  | ending {id metadata e} (known : s.extractions.lookup id = some e) : Admitted s before (.TextEnd id metadata)

variable {s : StreamState} {id : PartId} {e : Extraction} {part : StreamPart} {input emitted : List StreamPart}

theorem process_start {metadata : Option ProviderMetadata}
    (absent : s.extractions.lookup id = none) : s.process config (.TextStart id metadata) =
      ({ s with extractions := Assoc.put s.extractions id (begun config id metadata) },[]) := by
  simp only [process,entry,absent]
  rfl

theorem process_delta {delta : String}
    {metadata : Option ProviderMetadata} (known : s.extractions.lookup id = some e) :
    s.process config (.TextDelta id delta metadata) =
      (⟨Assoc.put s.extractions id (e.process_delta config delta.toList s.next_reasoning_id).extraction,
        (e.process_delta config delta.toList s.next_reasoning_id).counter⟩,
        (e.process_delta config delta.toList s.next_reasoning_id).out) := by
  simp only [process,entry,known]
  rfl

theorem process_end {metadata : Option ProviderMetadata}
    (known : s.extractions.lookup id = some e) : s.process config (.TextEnd id metadata) =
      (⟨Assoc.remove s.extractions id,(e.finish config.separator s.next_reasoning_id).counter⟩,
        (e.finish config.separator s.next_reasoning_id).out ++ [.TextEnd id metadata]) := by
  simp only [process,known]

theorem process_all_append (first second : List StreamPart) : ∀ s : StreamState,
    s.process_all config (first ++ second) =
      (((s.process_all config first).1.process_all config second).1,
        (s.process_all config first).2 ++ ((s.process_all config first).1.process_all config second).2) := by
  induction first with
  | nil => exact fun s => rfl
  | cons _ _ ih =>
    intro s
    simp only [cons_append,process_all,ih]

theorem TextStream.before {before : List StreamPart} (stream : TextStream (before ++ [part])) :
    TextStream before := by
  refine ⟨fun p mem => stream.texts p (mem_append_left _ mem),?_,?_⟩
  · have bracketed := stream.bracketed
    rw [marks,filterMap_append,run_append] at bracketed
    exact Option.isSome_of_isSome_bind bracketed
  · have fresh := stream.fresh
    rw [filterMap_append] at fresh
    exact fresh.of_append_left

def Linked (s : StreamState) (before : List StreamPart) : Prop :=
  ∀ opened, run ∅ (marks before) = some opened → ∀ id, .text id ∈ opened ↔ (s.extractions.lookup id).isSome

theorem TextStream.admitted {before : List StreamPart}
    (stream : TextStream (before ++ [part])) (linked : Linked s before) : Admitted s before part := by
  have isText := stream.texts part (by simp)
  have fresh := stream.fresh
  have bracketed := stream.bracketed
  obtain ⟨opened,ran⟩ := Option.isSome_iff_exists.mp stream.before.bracketed
  have ids := linked opened ran
  rw [marks,filterMap_append,run_append,show before.filterMap mark = marks before from rfl,ran] at bracketed
  cases part <;> cases isText
  case TextStart.refl id metadata =>
    refine .start ?_ ?_
    · by_contra known
      have isOpen := (ids id).mpr (Option.isSome_iff_ne_none.mpr known)
      simp [mark,step,isOpen] at bracketed
    · rw [filterMap_append] at fresh
      exact fun mem => (disjoint_of_nodup_append fresh) mem (by simp [partId])
  case TextDelta.refl id delta metadata =>
    have isOpen : PartKey.text id ∈ opened := by
      by_contra closed
      simp [mark,step,closed] at bracketed
    obtain ⟨e,known⟩ := Option.isSome_iff_exists.mp ((ids id).mp isOpen)
    exact .delta known
  case TextEnd.refl id metadata =>
    have isOpen : PartKey.text id ∈ opened := by
      by_contra closed
      simp [mark,step,closed] at bracketed
    obtain ⟨e,known⟩ := Option.isSome_iff_exists.mp ((ids id).mp isOpen)
    exact .ending known

theorem Linked.process {before : List StreamPart} (linked : Linked s before)
    (admitted : Admitted s before part) : Linked (s.process config part).1 (before ++ [part]) := by
  intro opened ran id
  rw [marks,filterMap_append,run_append,show before.filterMap mark = marks before from rfl] at ran
  obtain ⟨earlier,first,last⟩ := Option.bind_eq_some_iff.mp ran
  have ids := linked earlier first id
  cases admitted with
  | @start other metadata absent new =>
    obtain ⟨_,rfl⟩ := Brackets.step_opens_some.mp ((Brackets.run_singleton _ _).symm.trans last)
    rw [process_start absent,lookup_put]
    by_cases same : id = other
    · simp [same]
    · simp [same,ids]
  | @delta other delta metadata e known =>
    obtain ⟨_,rfl⟩ := Brackets.step_within_some.mp ((Brackets.run_singleton _ _).symm.trans last)
    rw [process_delta known,lookup_put,ids]
    by_cases same : id = other
    · simp [same,known]
    · simp [same]
  | @ending other metadata e known =>
    obtain ⟨_,rfl⟩ := Brackets.step_closes_some.mp ((Brackets.run_singleton _ _).symm.trans last)
    rw [process_end known,lookup_remove]
    by_cases same : id = other
    · simp [same]
    · simp [same,ids]

theorem TextStream.invariant
    {P : List StreamPart → StreamState → List (StreamPart × List StreamPart) → Prop} (start : P [] .new [])
    (kept : ∀ before part s out, P before s out → Admitted s before part →
      P (before ++ [part]) (s.process config part).1 (out ++ [(part,(s.process config part).2)]))
    (stream : TextStream input) :
    P input (StreamState.new.process_all config input).1 (StreamState.new.process_all config input).2 ∧
      Linked (StreamState.new.process_all config input).1 input := by
  induction input using reverseRecOn with
  | nil =>
    refine ⟨start,fun opened ran id => ?_⟩
    obtain rfl := Option.some.inj ran
    simp [process_all,new]
  | append_singleton before _ ih =>
    obtain ⟨held,linked⟩ := ih stream.before
    have admitted := stream.admitted linked
    rw [process_all_append]
    exact ⟨kept _ _ _ _ held admitted,linked.process admitted⟩

inductive Phase (config : ExtractReasoning) (before : List StreamPart) (s : StreamState) (id : PartId)
    (emitted : List StreamPart) : Prop
  | ahead (new : id ∉ before.filterMap partId) (absent : s.extractions.lookup id = none)
      (untold : textOf id before = []) (silent : emitted = [])
  | amid (metadata e) (old : id ∈ before.filterMap partId) (known : s.extractions.lookup id = some e)
      (follows : Emission.erased ⟨e,0,emitted⟩ =
        ((begun config id metadata).process_delta config (textOf id before) 0).erased)
  | ended (metadata) (old : id ∈ before.filterMap partId) (absent : s.extractions.lookup id = none)
      (told : emitted.flatMap erase =
        (whole config id metadata (textOf id before)).out.flatMap erase ++ [.TextEnd])

theorem textOf_append (id : PartId) (before after : List StreamPart) :
    textOf id (before ++ after) = textOf id before ++ textOf id after := by
  simp [textOf]

def ownOutputs (id : PartId) (out : List (StreamPart × List StreamPart)) : List StreamPart :=
  (out.filter (textId ·.1 = some id)).flatMap (·.2)

theorem ownOutputs_append (id : PartId) (out : List (StreamPart × List StreamPart)) (part : StreamPart)
    (emitted : List StreamPart) : ownOutputs id (out ++ [(part,emitted)]) =
      ownOutputs id out ++ if textId part = some id then emitted else [] := by
  unfold ownOutputs
  rw [filter_append,flatMap_append]
  congr 1
  split_ifs with own <;> simp [own]

theorem Admitted.isText {before : List StreamPart} (admitted : Admitted s before part) : (textId part).isSome := by
  cases admitted <;> rfl

theorem partId_of_text (isText : (textId part).isSome) (starts : partId part = some id) : textId part = some id := by
  cases part <;> cases isText <;> first | exact starts | cases starts

theorem mem_starts_append {before : List StreamPart} :
    id ∈ (before ++ [part]).filterMap partId ↔ id ∈ before.filterMap partId ∨ partId part = some id := by
  simp [filterMap_append,eq_comm]

theorem Phase.other {before : List StreamPart} {s' : StreamState}
    (phase : Phase config before s id emitted) (isText : (textId part).isSome)
    (foreign : textId part ≠ some id) (same : s'.extractions.lookup id = s.extractions.lookup id) :
    Phase config (before ++ [part]) s' id emitted := by
  have text : textOf id (before ++ [part]) = textOf id before := by
    rw [textOf_append]
    cases part <;> simp [textOf]
    case TextDelta other delta metadata => exact fun own => absurd (congrArg some own) foreign
  cases phase with
  | ahead new absent untold silent =>
    refine .ahead (fun mem => ?_) (same.trans absent) (text.trans untold) silent
    rcases mem_starts_append.mp mem with earlier | now
    · exact new earlier
    · exact foreign (partId_of_text isText now)
  | amid metadata e old known follows =>
    rw [← text] at follows
    exact .amid metadata e (mem_starts_append.mpr (.inl old)) (same.trans known) follows
  | ended metadata old absent told =>
    rw [← text] at told
    exact .ended metadata (mem_starts_append.mpr (.inl old)) (same.trans absent) told

theorem Phase.process (tagged : Tagged config) {before : List StreamPart} (phase : Phase config before s id emitted)
    (admitted : Admitted s before part) : Phase config (before ++ [part]) (s.process config part).1 id
      (emitted ++ if textId part = some id then (s.process config part).2 else []) := by
  have isText := admitted.isText
  cases admitted with
  | @start other metadata absent new =>
    rw [process_start absent]
    by_cases own : other = id
    · subst own
      cases phase with
      | ahead _ _ untold silent =>
        refine .amid metadata _ (mem_starts_append.mpr (.inr rfl)) (by rw [lookup_put,if_pos rfl]) ?_
        have text : textOf other (before ++ [.TextStart other metadata]) = [] := by
          rw [textOf_append,untold]
          simp [textOf]
        rw [text,silent,process_delta_absorb,absorb_nil tagged.tags (by rfl)]
        simp [begun,Extraction.new,Emission.erased]
      | amid _ _ old => exact absurd old new
      | ended _ old => exact absurd old new
    · have foreign : textId (.TextStart other metadata) ≠ some id := by simpa [textId] using own
      rw [if_neg foreign,append_nil]
      refine phase.other isText foreign ?_
      rw [lookup_put,if_neg (Ne.symm own)]
  | @delta other delta metadata e known =>
    rw [process_delta known]
    by_cases own : other = id
    · subst own
      cases phase with
      | ahead _ absent => exact absurd (known.symm.trans absent) (by simp)
      | ended _ _ absent => exact absurd (known.symm.trans absent) (by simp)
      | amid start _ old known' follows =>
        obtain rfl := Option.some.inj (known.symm.trans known')
        refine .amid start _ (mem_starts_append.mpr (.inl old)) (by rw [lookup_put,if_pos rfl]) ?_
        have text : textOf other (before ++ [.TextDelta other delta metadata]) = textOf other before ++ delta.toList := by
          rw [textOf_append]
          simp [textOf]
        have own : textId (.TextDelta other delta metadata) = some other := rfl
        rw [if_pos own,text,process_delta_append tagged]
        exact (erasable_process_delta tagged.tags delta.toList).andThen (m := ⟨e,s.next_reasoning_id,emitted⟩) follows
    · have foreign : textId (.TextDelta other delta metadata) ≠ some id := by simpa [textId] using own
      rw [if_neg foreign,append_nil]
      refine phase.other isText foreign ?_
      rw [lookup_put,if_neg (Ne.symm own)]
  | @ending other metadata e known =>
    rw [process_end known]
    by_cases own : other = id
    · subst own
      cases phase with
      | ahead _ absent => exact absurd (known.symm.trans absent) (by simp)
      | ended _ _ absent => exact absurd (known.symm.trans absent) (by simp)
      | amid start _ old known' follows =>
        obtain rfl := Option.some.inj (known.symm.trans known')
        refine .ended start (mem_starts_append.mpr (.inl old)) (by rw [lookup_remove,if_pos rfl]) ?_
        have text : textOf other (before ++ [.TextEnd other metadata]) = textOf other before := by
          rw [textOf_append]
          simp [textOf]
        have finished := congrArg Prod.snd
          ((erasable_finish config.separator).andThen (m := ⟨e,s.next_reasoning_id,emitted⟩) follows)
        have own : textId (.TextEnd other metadata) = some other := rfl
        rw [if_pos own,text,← append_assoc,flatMap_append]
        exact congrArg (· ++ [Atom.TextEnd]) finished
    · have foreign : textId (.TextEnd other metadata) ≠ some id := by simpa [textId] using own
      rw [if_neg foreign,append_nil]
      refine phase.other isText foreign ?_
      rw [lookup_remove,if_neg (Ne.symm own)]

theorem TextStream.keys_nodup (stream : TextStream input) :
    ((StreamState.new.process_all config input).1.extractions.map (·.1)).Nodup := by
  refine (stream.invariant (P := fun _ s _ => (s.extractions.map (·.1)).Nodup) (by simp [new])
    fun before part s out nodup admitted => ?_).1
  have removed : ∀ id, ((remove s.extractions id).map (·.1)).Nodup := fun id =>
    nodup.sublist (List.filter_sublist.map _)
  have put : ∀ id (e : Extraction), ((put s.extractions id e).map (·.1)).Nodup := by
    refine fun id e => List.nodup_cons.mpr ⟨fun mem => ?_,removed id⟩
    obtain ⟨_,inside,same⟩ := List.mem_map.mp mem
    simpa [same] using (List.mem_filter.mp inside).2
  cases admitted with
  | start absent _ =>
    rw [process_start absent]
    exact put _ _
  | delta known =>
    rw [process_delta known]
    exact put _ _
  | ending known =>
    rw [process_end known]
    exact removed _

theorem close_each_none : ∀ (entries : List (PartId × Extraction)) (counter : UInt32),
    id ∉ entries.map (·.1) → (StreamState.close_each config entries counter).2.filter (·.1 = id) = [] := by
  intro entries
  induction entries with
  | nil => exact fun counter _ => rfl
  | cons _ _ ih =>
    intro counter absent
    simp only [map_cons,mem_cons,not_or] at absent
    rw [close_each,filter_cons_of_neg (by simpa using Ne.symm absent.1)]
    exact ih _ absent.2

theorem close_each_own : ∀ (entries : List (PartId × Extraction)) (counter : UInt32),
    (entries.map (·.1)).Nodup → (id,e) ∈ entries → ∃ counter',
      (StreamState.close_each config entries counter).2.filter (·.1 = id) =
        [(id,(StreamState.close config counter' id e).2)] := by
  intro entries
  induction entries with
  | nil => exact fun counter _ mem => absurd mem not_mem_nil
  | cons entry _ ih =>
    intro counter nodup mem
    obtain ⟨other,_⟩ := entry
    rw [map_cons,nodup_cons] at nodup
    rw [close_each]
    rcases List.mem_cons.mp mem with same | later
    · obtain ⟨rfl,rfl⟩ := Prod.mk.inj same
      refine ⟨counter,?_⟩
      rw [filter_cons_of_pos (by simp),close_each_none _ _ nodup.1]
    · have differs : other ≠ id := by
        rintro rfl
        exact nodup.1 (List.mem_map.mpr ⟨_,later,rfl⟩)
      rw [filter_cons_of_neg (by simpa using differs)]
      exact ih _ nodup.2 later

theorem mem_sorted {entries : List (PartId × Extraction)} {entry : PartId × Extraction} :
    entry ∈ entries.insertionSort (·.1 ≤ ·.1) ↔ entry ∈ entries :=
  (perm_insertionSort _ _).mem_iff

theorem TextStream.phase (tagged : Tagged config) (stream : TextStream input) (id : PartId) :
    Phase config input (StreamState.new.process_all config input).1 id
      (ownOutputs id (StreamState.new.process_all config input).2) :=
  (stream.invariant (P := fun before s out => Phase config before s id (ownOutputs id out)) (.ahead (by simp) rfl rfl rfl)
    fun before part s out phase admitted => by
      rw [ownOutputs_append]
      exact phase.process tagged admitted).1

theorem emitted_told (tagged : Tagged config) (stream : TextStream input) (started : id ∈ input.filterMap partId) :
    said ((config.emitted input id).flatMap erase) = plainText config.separator (config.sections (textOf id input)) ∧
      reasoned ((config.emitted input id).flatMap erase) =
        reasoningTexts config.separator false (config.sections (textOf id input)) := by
  have phase := stream.phase tagged id
  have nodup := @TextStream.keys_nodup config _ stream
  have emitted : config.emitted input id = ownOutputs id (StreamState.new.process_all config input).2 ++
      ((close_each config ((StreamState.new.process_all config input).1.extractions.insertionSort (·.1 ≤ ·.1))
        (StreamState.new.process_all config input).1.next_reasoning_id).2.filter (·.1 = id)).flatMap (·.2) := rfl
  generalize (StreamState.new.process_all config input).1 = s at phase nodup emitted
  have sorted : ((s.extractions.insertionSort (·.1 ≤ ·.1)).map (·.1)).Nodup :=
    ((perm_insertionSort _ _).map _).nodup_iff.mpr nodup
  cases phase with
  | ahead new => exact absurd started new
  | amid metadata e _ known follows =>
    obtain ⟨counter,closing⟩ := @close_each_own config _ _ (s.extractions.insertionSort (·.1 ≤ ·.1))
      s.next_reasoning_id sorted (mem_sorted.mpr (mem_of_lookup known))
    have finished := congrArg Prod.snd
      ((erasable_finish config.separator).andThen (m := ⟨e,counter,ownOutputs id _⟩) follows)
    obtain ⟨text,parts⟩ := told_whole tagged.tags id metadata (textOf id input)
    rw [emitted,closing,flatMap_singleton,close,← append_assoc,flatMap_append]
    have out : (ownOutputs id (StreamState.new.process_all config input).2 ++
        (e.finish config.separator counter).out).flatMap erase =
        (whole config id metadata (textOf id input)).out.flatMap erase := finished
    rw [out]
    split_ifs
    · rw [show flatMap erase [.TextEnd id none] = [.TextEnd] from rfl,said_append,reasoned_append_end]
      exact ⟨(append_nil _).trans text,parts⟩
    · rw [flatMap_nil,append_nil]
      exact ⟨text,parts⟩
  | ended metadata _ absent told =>
    have unknown : id ∉ (s.extractions.insertionSort (·.1 ≤ ·.1)).map (·.1) := by
      intro mem
      obtain ⟨⟨_,e⟩,inside,rfl⟩ := List.mem_map.mp mem
      have known := (lookup_isSome_of_mem (mem_sorted.mp inside))
      simp [absent] at known
    obtain ⟨text,parts⟩ := told_whole tagged.tags id metadata (textOf id input)
    rw [emitted,close_each_none _ _ unknown,flatMap_nil,append_nil,told,said_append,reasoned_append_end]
    exact ⟨(append_nil _).trans text,parts⟩

end

end Ferrin.Middleware
