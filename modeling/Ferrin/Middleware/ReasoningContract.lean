import Ferrin.Middleware.ReasoningLifecycle

/-!
The parts that the extractions of a stream emit are well bracketed, every text
starts once, and no two reasoning parts have the same id as long as the counter
does not wrap (`Tracked`).
-/
namespace Ferrin.Middleware
open List StreamState ExtractReasoning
open Ferrin.Brackets (run run_append)
open Ferrin.Stream (PartKey mark marks partId)
open StreamState (close_each new)

def openKeys (entries : List (PartId × Extraction)) : Finset PartKey :=
  entries.foldr (fun entry keys => entry.2.keys ∪ keys) ∅

def openReasoning (entries : List (PartId × Extraction)) : List PartId := entries.filterMap (·.2.reasoning_id)

structure Distinct (n : Nat) (entries : List (PartId × Extraction)) : Prop where
  nodup : (openReasoning entries).Nodup
  named : ∀ id ∈ openReasoning entries, Named n id

structure Tracked (n : Nat) (before : List StreamPart) (s : StreamState) (out : List StreamPart) : Prop where
  counter : s.next_reasoning_id = .ofNat n
  keyed : (s.extractions.map (·.1)).Nodup
  sound : ∀ entry ∈ s.extractions, entry.2.text_id = entry.1 ∧ entry.2.Sound
  names : out.filterMap reasoningId = (List.range n).map nthName
  texts : (out.filterMap textStart ++ s.extractions.flatMap (·.2.pending)).Perm (before.filterMap partId)
  bracketed : n ≤ 2 ^ 32 → run ∅ (marks out) = some (openKeys s.extractions) ∧ Distinct n s.extractions

section
variable {config : ExtractReasoning} {n n' : Nat} {before : List StreamPart} {counter : UInt32} {out : List StreamPart}
  {id : PartId} {e : Extraction} {entries rest : List (PartId × Extraction)} {m : Emission}

theorem mem_openKeys {key : PartKey} : key ∈ openKeys entries ↔ ∃ entry ∈ entries, key ∈ entry.2.keys := by
  induction entries with
  | nil => simp [openKeys]
  | cons entry rest ih =>
    have split : openKeys (entry :: rest) = entry.2.keys ∪ openKeys rest := rfl
    simp [split,ih]

theorem mem_keys_text {other : PartId} : PartKey.text other ∈ e.keys ↔ e.text_started = true ∧ other = e.text_id := by
  unfold Extraction.keys
  cases e.reasoning_id <;> cases e.text_started <;> simp

theorem mem_keys_reasoning {r : PartId} : PartKey.reasoning r ∈ e.keys ↔ e.reasoning_id = some r := by
  unfold Extraction.keys
  cases e.reasoning_id <;> cases e.text_started <;> simp [eq_comm]

theorem mem_openKeys_reasoning {r : PartId} :
    PartKey.reasoning r ∈ openKeys entries ↔ r ∈ openReasoning entries := by
  rw [mem_openKeys,openReasoning,mem_filterMap]
  simp only [mem_keys_reasoning]

theorem openReasoning_cons : openReasoning ((id,e) :: rest) = e.reasoning_id.toList ++ openReasoning rest := by
  unfold openReasoning
  rw [filterMap_cons]
  cases e.reasoning_id <;> rfl

theorem Tracked.perm (tracked : Tracked n before ⟨entries,counter⟩ out) (same : entries.Perm rest) :
    Tracked n before ⟨rest,counter⟩ out where
  counter := tracked.counter
  keyed := (same.map _).nodup_iff.mp tracked.keyed
  sound := fun entry mem => tracked.sound entry (same.mem_iff.mpr mem)
  names := tracked.names
  texts := ((same.flatMap_right _).append_left _).symm.trans tracked.texts
  bracketed bound := by
    obtain ⟨ran,distinct⟩ := tracked.bracketed bound
    have keys : openKeys entries = openKeys rest := by
      ext key
      simp only [mem_openKeys,same.mem_iff]
    rw [← keys]
    exact ⟨ran,(same.filterMap _).nodup_iff.mp distinct.nodup,
      fun r mem => distinct.named r ((same.filterMap _).mem_iff.mpr mem)⟩

theorem Tracked.more {s : StreamState} {part : StreamPart} (tracked : Tracked n before s out)
    (continues : partId part = none) : Tracked n (before ++ [part]) s out where
  counter := tracked.counter
  keyed := tracked.keyed
  sound := tracked.sound
  names := tracked.names
  texts := by
    rw [filterMap_append,filterMap_cons_none continues,filterMap_nil,append_nil]
    exact tracked.texts
  bracketed := tracked.bracketed

theorem Tracked.begin {s : StreamState} {metadata : Option ProviderMetadata} (tracked : Tracked n before s out)
    (absent : s.extractions.lookup id = none) : Tracked n (before ++ [.TextStart id metadata])
      { s with extractions := (id,Extraction.begun config id metadata) :: s.extractions } out where
  counter := tracked.counter
  keyed := by
    refine List.nodup_cons.mpr ⟨fun mem => ?_,tracked.keyed⟩
    obtain ⟨entry,inside,same⟩ := List.mem_map.mp mem
    have known := Assoc.lookup_isSome_of_mem inside
    rw [same,absent] at known
    cases known
  sound := by
    intro entry mem
    rcases List.mem_cons.mp mem with rfl | later
    · exact ⟨rfl,⟨.inl ⟨metadata,rfl,rfl⟩,fun _ => rfl⟩⟩
    · exact tracked.sound entry later
  names := tracked.names
  texts := by
    rw [filterMap_append,flatMap_cons]
    refine (perm_append_comm_assoc _ _ _).trans ?_
    refine List.Perm.trans ?_ perm_append_comm
    exact tracked.texts.append_left [id]
  bracketed bound := by
    obtain ⟨ran,distinct⟩ := tracked.bracketed bound
    have nothing : (Extraction.begun config id metadata).keys = ∅ := rfl
    have keys : openKeys ((id,Extraction.begun config id metadata) :: s.extractions) = openKeys s.extractions := by
      ext key
      rw [mem_openKeys,mem_openKeys]
      simp [nothing]
    refine ⟨by rw [keys]; exact ran,?_,?_⟩
    · exact distinct.nodup
    · exact distinct.named

theorem Tracked.apart (tracked : Tracked n before ⟨(id,e) :: rest,counter⟩ out) (bound : n ≤ 2 ^ 32) :
    Apart n (openKeys rest) e := by
  obtain ⟨_,distinct⟩ := tracked.bracketed bound
  have keyed := tracked.keyed
  simp only [map_cons,nodup_cons] at keyed
  refine ⟨fun mem => ?_,fun r known mem => ?_,fun r mem => distinct.named r ?_⟩
  · obtain ⟨entry,inside,key⟩ := mem_openKeys.mp mem
    have own := (tracked.sound (id,e) mem_cons_self).1
    have other := (tracked.sound entry (mem_cons_of_mem _ inside)).1
    have same : entry.1 = id := other.symm.trans ((mem_keys_text.mp key).2.symm.trans own)
    exact keyed.1 (same ▸ mem_map_of_mem inside)
  · have nodup := distinct.nodup
    rw [openReasoning_cons,known] at nodup
    exact (List.nodup_cons.mp nodup).1 (mem_openKeys_reasoning.mp mem)
  · rw [openReasoning_cons,mem_append]
    rcases mem with inside | known
    · exact .inr (mem_openKeys_reasoning.mp inside)
    · exact .inl (by simp [known])

theorem Tracked.advance (tracked : Tracked n before ⟨(id,e) :: rest,counter⟩ out) (step : Advances n e m n') :
    Tracked n' before ⟨(id,m.extraction) :: rest,m.counter⟩ (out ++ m.out) where
  counter := step.counter
  keyed := tracked.keyed
  sound := by
    intro entry mem
    rcases List.mem_cons.mp mem with rfl | later
    · exact ⟨step.text_id.trans (tracked.sound (id,e) mem_cons_self).1,step.sound⟩
    · exact tracked.sound entry (mem_cons_of_mem _ later)
  names := by
    have reached : n' = n + (n' - n) := by
      have := step.later
      omega
    rw [filterMap_append,tracked.names,step.names,← map_append,reached,range_add]
    simp [range'_eq_map_range]
  texts := by
    have texts := tracked.texts
    rw [flatMap_cons,← step.texts] at texts
    rw [filterMap_append,flatMap_cons]
    simpa only [append_assoc] using texts
  bracketed bound := by
    have earlier : n ≤ 2 ^ 32 := step.later.trans bound
    obtain ⟨ran,distinct⟩ := tracked.bracketed earlier
    obtain ⟨stepped,apart⟩ := step.bracketed bound _ (tracked.apart earlier)
    have keys : ∀ e : Extraction, openKeys ((id,e) :: rest) = openKeys rest ∪ e.keys :=
      fun e => Finset.union_comm _ _
    refine ⟨?_,?_,?_⟩
    · rw [marks,filterMap_append,run_append,show out.filterMap mark = marks out from rfl,ran]
      dsimp only
      rw [keys,keys]
      exact stepped
    · have others : (openReasoning rest).Nodup := distinct.nodup.sublist ((sublist_cons_self _ _).filterMap _)
      rw [openReasoning_cons]
      cases known : m.extraction.reasoning_id with
      | none => exact others
      | some r => exact List.nodup_cons.mpr ⟨fun mem => apart.reasoning r known (mem_openKeys_reasoning.mpr mem),others⟩
    · intro r mem
      refine apart.named r ?_
      rw [openReasoning_cons,mem_append] at mem
      rcases mem with own | later
      · exact .inr (by simpa using own)
      · exact .inl (mem_openKeys_reasoning.mpr later)

theorem Tracked.close {metadata : Option ProviderMetadata} (tracked : Tracked n before ⟨(id,e) :: rest,counter⟩ out)
    (started : e.text_started = true) (keys : e.keys = {.text e.text_id}) :
    Tracked n before ⟨rest,counter⟩ (out ++ [.TextEnd id metadata]) where
  counter := tracked.counter
  keyed := (List.nodup_cons.mp tracked.keyed).2
  sound := fun entry mem => tracked.sound entry (mem_cons_of_mem _ mem)
  names := by
    rw [filterMap_append,tracked.names]
    simp [reasoningId]
  texts := by
    have texts := tracked.texts
    simp only [flatMap_cons,Extraction.pending,started,if_true,nil_append] at texts
    rw [filterMap_append,show filterMap textStart [.TextEnd id metadata] = [] from rfl,append_nil]
    exact texts
  bracketed bound := by
    obtain ⟨ran,distinct⟩ := tracked.bracketed bound
    have apart := tracked.apart bound
    have own := (tracked.sound (id,e) mem_cons_self).1
    refine ⟨?_,distinct.nodup.sublist ((sublist_cons_self _ _).filterMap _),fun r mem => distinct.named r ?_⟩
    · rw [marks,filterMap_append,run_append,show out.filterMap mark = marks out from rfl,ran]
      have split : openKeys ((id,e) :: rest) = insert (.text id) (openKeys rest) := by
        show e.keys ∪ openKeys rest = _
        rw [keys,own]
        rfl
      have outside := apart.text
      rw [own] at outside
      simp [mark,split,Brackets.step,Finset.erase_insert outside]
    · exact ((sublist_cons_self _ _).filterMap _).subset mem

theorem tracked_close_each (entries : List (PartId × Extraction)) : ∀ (n : Nat) (counter : UInt32) (out : List StreamPart),
    Tracked n before ⟨entries,counter⟩ out → ∃ n', Tracked n' before ⟨[],(close_each config entries counter).1⟩
      (out ++ (close_each config entries counter).2.flatMap (·.2)) := by
  induction entries with
  | nil =>
    intro n counter out tracked
    exact ⟨n,by simpa [close_each] using tracked⟩
  | cons entry _ ih =>
    intro n counter out tracked
    obtain ⟨id,e⟩ := entry
    obtain rfl := tracked.counter
    obtain ⟨_,sound⟩ := tracked.sound (id,e) mem_cons_self
    obtain ⟨_,finished,started,keys⟩ := advances_finish (n := n) sound config.separator
    have closed := @Tracked.close _ _ _ _ _ _ _ none (tracked.advance finished) started (by rw [keys,finished.text_id])
    obtain ⟨last,tracked⟩ := ih _ _ _ closed
    refine ⟨last,?_⟩
    simpa [close_each,close,started] using tracked

theorem Tracked.process (tagged : Tagged config) {s : StreamState} {part : StreamPart} (tracked : Tracked n before s out)
    (admitted : Admitted s before part) :
    ∃ n', Tracked n' (before ++ [part]) (s.process config part).1 (out ++ (s.process config part).2) := by
  cases admitted with
  | @start id metadata absent new =>
    rw [process_start absent,Assoc.put,Assoc.remove_of_absent absent,append_nil]
    exact ⟨n,tracked.begin absent⟩
  | @delta id delta metadata e known =>
    rw [process_delta known]
    have focused := tracked.perm (Assoc.perm_of_lookup tracked.keyed known)
    obtain ⟨_,sound⟩ := focused.sound (id,e) mem_cons_self
    obtain ⟨n',step⟩ := advances_process_delta (n := n) tagged sound delta.toList
    rw [← tracked.counter] at step
    exact ⟨n',(focused.advance step).more (by simp [partId])⟩
  | @ending id metadata e known =>
    rw [process_end known]
    have focused := tracked.perm (Assoc.perm_of_lookup tracked.keyed known)
    obtain ⟨_,sound⟩ := focused.sound (id,e) mem_cons_self
    obtain ⟨n',step,started,keys⟩ := advances_finish (n := n) sound config.separator
    rw [← tracked.counter] at step started keys
    have closed := @Tracked.close _ _ _ _ _ _ _ metadata (focused.advance step) started (by rw [keys,step.text_id])
    rw [append_assoc] at closed
    exact ⟨n',closed.more (by simp [partId])⟩

/-! ### The stream -/

variable {input : List StreamPart}

def ExtractReasoning.attributed (config : ExtractReasoning) (input : List StreamPart) :
    List (Option PartId × List StreamPart) :=
  let (s,out) := new.process_all config input
  out.map (fun (part,emitted) => (textId part,emitted)) ++
    (s.closings config).2.map fun (id,emitted) => (some id,emitted)

theorem apply_stream_attributed : config.apply_stream input = (config.attributed input).flatMap (·.2) := by
  simp [apply_stream,attributed,finish_all,flatMap_map]

theorem emitted_attributed (id : PartId) :
    config.emitted input id = ((config.attributed input).filter (·.1 = some id)).flatMap (·.2) := by
  simp [emitted,attributed,filter_append,filter_map,flatMap_map,
    Function.comp_def]

theorem close_each_keys (entries : List (PartId × Extraction)) : ∀ counter,
    (close_each config entries counter).2.map (·.1) = entries.map (·.1) := by
  induction entries with
  | nil => exact fun counter => rfl
  | cons _ _ ih =>
    intro counter
    rw [close_each,map_cons,map_cons,ih]

theorem Phase.started {s : StreamState} (phase : Phase config before s id out) (known : s.extractions.lookup id = some e) :
    id ∈ before.filterMap partId := by
  cases phase with
  | ahead _ absent => exact absurd (known.symm.trans absent) (by simp)
  | amid _ _ old => exact old
  | ended _ old => exact old

theorem attributed_started (tagged : Tagged config) (stream : TextStream input) :
    ∀ entry ∈ config.attributed input, entry.1 ∈ (input.filterMap partId).map some := by
  have outputs := (stream.invariant (P := fun before s out => (∀ id, Phase config before s id (ownOutputs id out)) ∧
    ∀ pair ∈ out, textId pair.1 ∈ (before.filterMap partId).map some) ⟨fun id => .ahead (by simp) rfl rfl rfl,by simp⟩
    fun before part s out ⟨phases,started⟩ admitted => by
      refine ⟨fun id => ?_,fun pair mem => ?_⟩
      · rw [ownOutputs_append]
        exact (phases id).process tagged admitted
      · rcases List.mem_append.mp mem with earlier | last
        · rw [filterMap_append,map_append]
          exact mem_append_left _ (started pair earlier)
        · cases List.mem_singleton.mp last
          cases admitted with
          | @start id metadata absent new =>
            exact mem_map_of_mem (mem_starts_append.mpr (.inr rfl))
          | @delta id delta metadata e known =>
            exact mem_map_of_mem (mem_starts_append.mpr (.inl ((phases id).started known)))
          | @ending id metadata e known =>
            exact mem_map_of_mem (mem_starts_append.mpr (.inl ((phases id).started known)))).1.2
  intro entry mem
  rcases List.mem_append.mp mem with during | closing
  · obtain ⟨pair,inside,rfl⟩ := List.mem_map.mp during
    exact outputs pair inside
  · obtain ⟨pair,inside,rfl⟩ := List.mem_map.mp closing
    have key := mem_map_of_mem (f := (·.1)) inside
    rw [closings,close_each_keys] at key
    obtain ⟨_,mem,same⟩ := List.mem_map.mp key
    obtain ⟨e,found⟩ := Option.isSome_iff_exists.mp (Assoc.lookup_isSome_of_mem (mem_sorted.mp mem))
    rw [same] at found
    exact mem_map_of_mem ((stream.phase tagged pair.1).started found)

theorem count_starts (parts : List StreamPart) :
    (parts.flatMap erase).count .ReasoningStart = (parts.filterMap reasoningId).length := by
  induction parts with
  | nil => rfl
  | cons part _ ih =>
    rw [flatMap_cons,count_append,ih,filterMap_cons]
    cases part <;> simp [erase,reasoningId,count_eq_zero,Nat.add_comm]

def reasoningSections (config : ExtractReasoning) (input : List StreamPart) : Nat :=
  ((input.filterMap partId).map fun id => (config.sections (textOf id input)).countP (·.is_reasoning)).sum

theorem reasoning_starts (tagged : Tagged config) (stream : TextStream input) :
    ((config.apply_stream input).filterMap reasoningId).length = reasoningSections config input := by
  have once : ((input.filterMap partId).map some).Nodup := stream.fresh.map (Option.some_injective _)
  have summed := Assoc.sum_by_key (fun parts : List StreamPart => (parts.filterMap reasoningId).length) _ once _
    (attributed_started tagged stream)
  have whole : ((config.apply_stream input).filterMap reasoningId).length =
      ((config.attributed input).map fun entry => (entry.2.filterMap reasoningId).length).sum := by
    rw [apply_stream_attributed,filterMap_flatMap,length_flatMap]
  rw [whole,summed,map_map,reasoningSections]
  refine congrArg List.sum (map_congr_left fun id started => ?_)
  have own : (((config.attributed input).filter (·.1 = some id)).map fun entry => (entry.2.filterMap reasoningId).length).sum =
      ((config.emitted input id).filterMap reasoningId).length := by
    rw [emitted_attributed,filterMap_flatMap,length_flatMap]
  rw [Function.comp_apply,own,← count_starts,← reasoned_length,(emitted_told tagged stream started).2,reasoningTexts_length]

theorem tracked_stream (tagged : Tagged config) (stream : TextStream input) : ∃ n s,
    Tracked n input s (config.apply_stream input) ∧ s.extractions = [] := by
  obtain ⟨n,tracked⟩ := (stream.invariant (P := fun before s out => ∃ n, Tracked n before s (out.flatMap (·.2)))
    ⟨0,⟨rfl,by simp [new],by simp [new],rfl,.refl _,fun _ => ⟨rfl,by simp [new,openReasoning],by
      simp [new,openReasoning]⟩⟩⟩
    fun before part s out ⟨n,tracked⟩ admitted => by
      rw [flatMap_append,flatMap_singleton]
      exact tracked.process tagged admitted).1
  obtain ⟨n',closed⟩ := @tracked_close_each config _ _ _ _ _ (tracked.perm (perm_insertionSort (·.1 ≤ ·.1) _).symm)
  exact ⟨n',_,closed,rfl⟩

theorem apply_stream_finish (reason : FinishReason) (usage : Usage)
    (metadata : Option ProviderMetadata) : config.apply_stream (input ++ [.Finish reason usage metadata]) =
      config.apply_stream input ++ [.Finish reason usage metadata] := by
  simp [apply_stream,process_all_append,process_all,process,
    finish_all,closings,close_each]

theorem tagged_plain {tag_name : List Char} (plain : '<' ∉ tag_name) (separator : List Char) (start_with_reasoning : Bool) :
    Tagged { extract_reasoning tag_name with separator,start_with_reasoning } where
  opening := ⟨'<',tag_name ++ ['>'],rfl,by simp [plain]⟩
  closing := ⟨'<','/' :: tag_name ++ ['>'],rfl,by simp [plain]⟩

end

/-- The extraction from a stream of text parts: every text part is told by the sections of its text, and as long
as no more than 2^32 reasoning parts are counted, the parts are well bracketed under ids of their own. -/
theorem extraction_split_independent (tag_name separator : List Char) (start_with_reasoning : Bool)
    (plain : '<' ∉ tag_name) (input : List StreamPart) (stream : TextStream input) :
    let config := { extract_reasoning tag_name with separator,start_with_reasoning }
    (∀ id ∈ input.filterMap partId,
      said ((config.emitted input id).flatMap erase) = plainText separator (config.sections (textOf id input)) ∧
      reasoned ((config.emitted input id).flatMap erase) =
        reasoningTexts separator false (config.sections (textOf id input))) ∧
    (∀ reason usage metadata, config.apply_stream (input ++ [.Finish reason usage metadata]) =
      config.apply_stream input ++ [.Finish reason usage metadata]) ∧
    ((config.apply_stream input).filterMap textStart).Perm (input.filterMap partId) ∧
    (reasoningSections config input ≤ 2 ^ 32 → run ∅ (marks (config.apply_stream input)) = some ∅ ∧
      ((config.apply_stream input).filterMap reasoningId).Nodup) := by
  intro config
  have tagged : Tagged config := tagged_plain plain separator start_with_reasoning
  obtain ⟨n,s,tracked,closed⟩ := tracked_stream tagged stream
  have counted : n = reasoningSections config input := by
    rw [← reasoning_starts tagged stream,tracked.names,length_map,length_range]
  refine ⟨fun id started => emitted_told tagged stream started,apply_stream_finish,?_,fun bound => ⟨?_,?_⟩⟩
  · have texts := tracked.texts
    rwa [closed,flatMap_nil,append_nil] at texts
  · have ran := (tracked.bracketed (counted ▸ bound)).1
    rwa [closed] at ran
  · rw [tracked.names]
    refine List.nodup_range.map_on fun i first j second same => ?_
    rw [mem_range] at first second
    exact nthName_inj (by omega) (by omega) same

def thinking : List StreamPart :=
  [.TextStart "1" none,.TextDelta "1" "a<th" none,.TextDelta "1" "ink>b</think>c" none,.TextEnd "1" none]

theorem extraction_split_independent_think :
    let config := extract_reasoning "think".toList
    said ((config.emitted thinking "1").flatMap erase) = "a\nc".toList ∧
      reasoned ((config.emitted thinking "1").flatMap erase) = ["b".toList] ∧
      run ∅ (marks (config.apply_stream thinking)) = some ∅ := by
  obtain ⟨told,_,_,ids⟩ := extraction_split_independent "think".toList ['\n'] false (by decide) thinking
    ⟨by decide,by decide,by decide⟩
  obtain ⟨text,reasoning⟩ := told "1" (by decide)
  exact ⟨text.trans (by decide),reasoning.trans (by decide),(ids (by decide)).1⟩

def emptySections (n : Nat) : List StreamPart :=
  [.TextStart "1" none,.TextDelta "1" (String.ofList (List.replicate n "<t></t>".toList).flatten) none,.TextEnd "1" none]

theorem textStream_single (delta : String) :
    TextStream [.TextStart "1" none,.TextDelta "1" delta none,.TextEnd "1" none] where
  texts := by simp [textId]
  bracketed := by simp [marks,mark,Brackets.step]
  fresh := nodup_singleton "1"

theorem cut_empty_sections (n : Nat) : ∀ turns, 2 * n ≤ turns →
    (cut (extract_reasoning ['t']) turns false (List.replicate n "<t></t>".toList).flatten).countP (·.is_reasoning) = n := by
  induction n with
  | zero =>
    intro turns _
    cases turns <;> rfl
  | succ n ih =>
    intro turns enough
    obtain ⟨turns,rfl⟩ : ∃ fewer, turns = fewer + 2 := ⟨turns - 2,by omega⟩
    rw [replicate_succ,flatten_cons]
    generalize (replicate n "<t></t>".toList).flatten = rest at ih ⊢
    have opened : cut (extract_reasoning ['t']) (turns + 2) false ("<t></t>".toList ++ rest) =
        ⟨false,[]⟩ :: ⟨true,[]⟩ :: cut (extract_reasoning ['t']) turns false rest := by
      simp [cut,tag,extract_reasoning,Delimiter.find]
    rw [opened]
    simp [ih turns (by omega)]

theorem sections_empty (n : Nat) : reasoningSections (extract_reasoning ['t']) (emptySections n) = n := by
  have text : textOf "1" (emptySections n) = (replicate n "<t></t>".toList).flatten := by
    simp [textOf,emptySections]
  have ids : (emptySections n).filterMap partId = ["1"] := rfl
  rw [reasoningSections,ids,map_singleton,sum_singleton,text]
  refine cut_empty_sections n _ ?_
  simp only [length_flatten,map_replicate,sum_replicate_nat]
  show 2 * n ≤ n * 7 + 1
  omega

/-- One section more than the counter counts: its id is that of the first. -/
theorem reasoning_ids_repeat : TextStream (emptySections (2 ^ 32 + 1)) ∧
    ¬ (((extract_reasoning ['t']).apply_stream (emptySections (2 ^ 32 + 1))).filterMap reasoningId).Nodup := by
  have stream : TextStream (emptySections (2 ^ 32 + 1)) := textStream_single _
  have tagged : Tagged (extract_reasoning ['t']) := tagged_plain (by decide) ['\n'] false
  refine ⟨stream,fun once => ?_⟩
  obtain ⟨n,s,tracked,closed⟩ := tracked_stream tagged stream
  have counted : n = 2 ^ 32 + 1 := by
    have starts := reasoning_starts tagged stream
    rw [tracked.names,length_map,length_range] at starts
    rw [starts]
    exact sections_empty _
  rw [tracked.names] at once
  have same : nthName 0 = nthName (2 ^ 32) := rfl
  have impossible := inj_on_of_nodup_map once (x := 0) (by simp [counted]) (y := 2 ^ 32) (by simp [counted]) same
  cases impossible

end Ferrin.Middleware
