import Ferrin.Middleware.ReasoningContract
import Ferrin.Middleware.ReasoningDeltas

/-!
The complete and the streamed extraction of one text side by side. They tell
the same text and the same reasoning just when they put the same separators
(`reasoning_paths_agree_iff`).
-/
namespace Ferrin.Middleware
open List Extraction StreamState ExtractReasoning
open Ferrin.Separated (rejoin filled Gapless)

def textPart (id : PartId) (deltas : List (String × Option ProviderMetadata)) : List StreamPart :=
  .TextStart id none :: deltas.map (fun delta => .TextDelta id delta.1 delta.2) ++ [.TextEnd id none]

def thought (atoms : List Atom) : List Char :=
  atoms.filterMap fun
    | .Reasoning c => some c
    | _ => none

/-- Every opening tag of the text is closed. Without a tag, there is a single section. -/
def OpeningsClosed (sections : List Section) : Prop := EndsOutside sections ∨ sections.length = 1

def ExtractReasoning.followers (config : ExtractReasoning) (text : List Char) : List (List Char) :=
  if config.start_with_reasoning then outside (config.sections text) else (outside (config.sections text)).tail

/-- The texts of which a complete result and a stream tell the same. -/
structure SameSeparators (config : ExtractReasoning) (text : List Char) : Prop where
  ended : EndsOutside (config.sections text) ∨ text = []
  separated : config.separator = [] ∨
    ((inside (config.sections text)).length ≤ 1 ∨ ∀ inner ∈ inside (config.sections text), inner ≠ []) ∧
      Gapless (config.followers text)

section
variable {config : ExtractReasoning} {e : Extraction} {counter : UInt32}

/-! ### What a stream tells -/

theorem process_all_deltas {id : PartId} : ∀ (deltas : List (String × Option ProviderMetadata)) (e : Extraction)
    (counter : UInt32),
    let m := e.process_deltas config (deltas.map fun delta => delta.1.toList) counter
    let run := process_all config ⟨[(id,e)],counter⟩ (deltas.map fun delta => .TextDelta id delta.1 delta.2)
    run.1 = ⟨[(id,m.extraction)],m.counter⟩ ∧ run.2.flatMap (·.2) = m.out := by
  intro deltas
  induction deltas with
  | nil => exact fun e counter => ⟨rfl,rfl⟩
  | cons delta _ ih =>
    intro e counter
    have known : ([(id,e)] : List (PartId × Extraction)).lookup id = some e := by simp
    have put (e' : Extraction) : Assoc.put [(id,e)] id e' = [(id,e')] := by simp [Assoc.put,Assoc.remove]
    have processed := @process_delta config ⟨[(id,e)],counter⟩ id e delta.1 delta.2 known
    rw [put] at processed
    obtain ⟨state,out⟩ := ih (e.process_delta config delta.1.toList counter).extraction
      (e.process_delta config delta.1.toList counter).counter
    simp only [map_cons,process_all,processed,process_deltas]
    refine ⟨state,?_⟩
    rw [flatMap_cons,out]
    rfl

theorem apply_stream_part (id : PartId) (deltas : List (String × Option ProviderMetadata)) :
    config.apply_stream (textPart id deltas) =
      (((Extraction.begun config id none).process_deltas config (deltas.map fun delta => delta.1.toList) 0).andThen
        (Extraction.finish config.separator)).out ++ [.TextEnd id none] := by
  obtain ⟨state,out⟩ := @process_all_deltas config id deltas (begun config id none) 0
  have started : process config .new (.TextStart id none) = (⟨[(id,begun config id none)],0⟩,[]) :=
    process_start rfl
  generalize (begun config id none).process_deltas config (deltas.map fun delta => delta.1.toList) 0 = m at state out
  have known : ([(id,m.extraction)] : List (PartId × Extraction)).lookup id = some m.extraction := by simp
  have ended := @process_end config ⟨[(id,m.extraction)],m.counter⟩ id m.extraction none known
  have removed : Assoc.remove [(id,m.extraction)] id = [] := by simp [Assoc.remove]
  rw [apply_stream,textPart,cons_append,process_all]
  simp only [started,process_all_append,state,process_all,ended,removed]
  simp [out,Emission.andThen,finish_all,closings,close_each]

@[simp] theorem thought_append (first second : List Atom) : thought (first ++ second) = thought first ++ thought second :=
  filterMap_append

variable (text : List Char)

theorem thought_part (rest : List Atom) :
    thought (.ReasoningStart :: (text.map .Reasoning ++ .ReasoningEnd :: rest)) = text ++ thought rest := by
  have start : thought [.ReasoningStart] = [] := rfl
  have ending : thought (.ReasoningEnd :: rest) = thought rest := rfl
  have told : thought (text.map .Reasoning) = text := by simp [thought]
  rw [← singleton_append,thought_append,start,thought_append,told,ending,nil_append]

theorem thought_texts (rest : List Atom) : thought (text.map .Text ++ rest) = thought rest := by
  rw [thought_append]
  simp [thought]

theorem thought_tell (separator : List Char) (sections : List Section) : ∀ (e : Extraction) (counter : UInt32), Begins e →
    Alternate e.is_reasoning sections →
    thought ((e.tell separator sections counter).out.flatMap erase) =
      (reasoned ((e.tell separator sections counter).out.flatMap erase)).flatten := by
  induction sections with
  | nil =>
    intro e counter begins _
    rw [Extraction.tell,start_text]
    cases delayed : e.delayed_text_start with
    | none => rfl
    | some start =>
      simp only [flatMap_singleton,begins.delayed start delayed]
      rfl
  | cons s _ ih =>
    intro e counter begins alternates
    obtain ⟨_,alternate⟩ := alternates
    rw [tell_out,flatMap_append]
    cases reasoning : e.is_reasoning with
    | true =>
      rw [reasoning] at alternate
      obtain ⟨out,extraction⟩ := @tell_reasoning e counter separator s.text begins reasoning
      have later := ih _ (e.tell_section separator s.text counter).counter (begins_reasoning begins reasoning) (by
        rw [extraction]
        simpa [switch,reasoning] using alternate)
      rw [out,cons_append,append_assoc,singleton_append,thought_part,reasoned_part,flatten_cons,later]
    | false =>
      rw [reasoning] at alternate
      obtain ⟨out,extraction⟩ := @tell_text e counter separator s.text begins reasoning
      have later := ih _ (e.tell_section separator s.text counter).counter (begins_text begins reasoning) (by
        rw [extraction]
        simpa [switch,reasoning] using alternate)
      rw [out]
      by_cases empty : s.text = []
      · rw [if_pos empty]
        exact later
      · rw [if_neg empty]
        cases e.delayed_text_start with
        | none => exact (thought_texts _ _).trans (later.trans (congrArg _ (reasoned_texts _ _).symm))
        | some => exact (thought_texts _ _).trans (later.trans (congrArg _ (reasoned_texts _ _).symm))

theorem plainTexts_outside (sections : List Section) : plainTexts sections = filled (outside sections) := by
  rw [plainTexts,outside,filled,filter_map,filter_filter]
  congr 1
  exact filter_congr fun s _ => Bool.and_comm _ _

theorem reasoningTexts_inside (separator : List Char) (sections : List Section) : ∀ told,
    (reasoningTexts separator told sections).flatten = joined separator (!told) (filled (inside sections)) := by
  induction sections with
  | nil => intro told; cases told <;> rfl
  | cons s rest ih =>
    intro told
    rw [reasoningTexts]
    cases mode : s.is_reasoning with
    | false =>
      have skipped : inside (s :: rest) = inside rest := by simp [inside,mode]
      rw [if_neg (by simp),skipped,ih]
    | true =>
      have here : inside (s :: rest) = s.text :: inside rest := by simp [inside,mode]
      rw [if_pos rfl,here,flatten_cons,ih]
      by_cases empty : s.text = []
      · simp [empty]
      · have some_text : s.text.isEmpty = false := by simpa using empty
        rw [Separated.filled_cons empty,joined_cons]
        cases told <;> simp [some_text]

theorem streamed_told (tags : Tags config) (id : PartId) (deltas : List (String × Option ProviderMetadata))
    (kept : Kept config (deltas.map fun delta => delta.1.toList)) :
    let sections := config.sections (deltas.map fun delta => delta.1.toList).flatten
    said ((config.apply_stream (textPart id deltas)).flatMap erase) = config.separator.intercalate (filled (outside sections)) ∧
      thought ((config.apply_stream (textPart id deltas)).flatMap erase) =
        config.separator.intercalate (filled (inside sections)) := by
  dsimp only
  have reads : Reads config [] (deltas.map fun delta => delta.1.toList).flatten (begun config id none) :=
    ⟨[],settled_none (by simp [Delimiter.find,tags.tag_ne]),fun _ _ => Nat.zero_le _⟩
  have whole := congrArg Prod.snd (process_deltas_finish tags _ [] _ 0 reads fun first second same => kept first second same)
  have out : (config.apply_stream (textPart id deltas)).flatMap erase =
      (Extraction.whole config id none (deltas.map fun delta => delta.1.toList).flatten).out.flatMap erase ++ [.TextEnd] := by
    rw [apply_stream_part,flatMap_append]
    exact congrArg (· ++ [Atom.TextEnd]) whole
  obtain ⟨text,parts⟩ := told_whole tags id none (deltas.map fun delta => delta.1.toList).flatten
  generalize (deltas.map fun delta => delta.1.toList).flatten = text_whole at *
  have reasoning := thought_tell config.separator (config.sections text_whole)
    { begun config id none with buffer := text_whole } 0 begins_whole (cut_alternate _ _ _)
  rw [← whole_tell tags,parts,reasoningTexts_inside] at reasoning
  rw [out,said_append,thought_append,text,reasoning,plainText,plainTexts_outside]
  exact ⟨append_nil _,append_nil _⟩

theorem rejoin_pieces : rejoin config.separator false (config.pieces text) =
    config.separator.intercalate (filled (outside (config.sections text))) ↔
      config.separator = [] ∨ Gapless (config.followers text) := by
  unfold pieces followers
  cases config.start_with_reasoning with
  | true => exact Separated.rejoin_front
  | false =>
    cases outside (config.sections text) with
    | nil => simp [rejoin,filled,Gapless]
    | cons => exact Separated.rejoin_front

theorem apply_unclosed (tags : Tags config) (text : String) (metadata : Option ProviderMetadata) (first : List Char)
    (alone : config.sections text.toList = [⟨true,first⟩]) :
    first = text.toList ∧ remainingText (config.apply [.Text text metadata]) = text.toList ∧
      reasoningText (config.apply [.Text text metadata]) = [] := by
  have start : config.start_with_reasoning = true := by
    have alternate : Alternate config.start_with_reasoning (config.sections text.toList) := cut_alternate _ _ _
    rw [alone] at alternate
    exact alternate.1.symm
  have unclosed : Delimiter.find config.closing_tag text.toList = none ∧ first = text.toList := by
    rw [ExtractReasoning.sections,start,cut,show config.tag true = config.closing_tag from rfl] at alone
    cases found : Delimiter.find config.closing_tag text.toList with
    | none =>
      rw [found] at alone
      simp only [List.cons.injEq,Section.mk.injEq] at alone
      exact ⟨rfl,alone.1.2.symm⟩
    | some =>
      rw [found] at alone
      exact absurd (List.cons.inj alone).2 (cut_ne_nil _ _ _ _)
  refine ⟨unclosed.2,@apply_part_none config text metadata (config.opening_tag ++ text.toList) (by rw [start]; rfl) ?_⟩
  rw [captures,find_opening tags]
  dsimp only
  rw [Nat.zero_add,drop_left,unclosed.1]

end

/-- What a complete result and a stream of the same text tell. For a text where every opening tag is closed, whatever
its deltas hold back enough, they tell the same just when they put the same separators. -/
theorem reasoning_paths_agree_iff (tag_name separator : List Char) (start_with_reasoning : Bool) (id : PartId)
    (deltas : List (String × Option ProviderMetadata)) (metadata : Option ProviderMetadata) :
    let config := { extract_reasoning tag_name with separator,start_with_reasoning }
    let pieces := deltas.map fun delta => delta.1.toList
    let complete := config.apply [.Text (String.ofList pieces.flatten) metadata]
    let streamed := (config.apply_stream (textPart id deltas)).flatMap erase
    OpeningsClosed (config.sections pieces.flatten) → ('<' ∉ tag_name ∨ Kept config pieces) →
      ((remainingText complete = said streamed ∧ reasoningText complete = thought streamed) ↔
        SameSeparators config pieces.flatten) := by
  intro config pieces complete streamed closed kept
  have tags : Tags config := ⟨by simp [config,extract_reasoning],by simp [config,extract_reasoning]⟩
  have kept : Kept config pieces := by
    rcases kept with plain | kept
    · exact (tagged_plain plain separator start_with_reasoning).kept pieces
    · exact kept
  obtain ⟨text,reasoning⟩ := streamed_told tags id deltas kept
  have list : (String.ofList pieces.flatten).toList = pieces.flatten := String.toList_ofList
  by_cases ends : EndsOutside (config.sections pieces.flatten)
  · obtain ⟨remaining,inner⟩ := apply_told tags (String.ofList pieces.flatten) metadata (by rwa [list])
    rw [list] at remaining inner
    rw [show remainingText complete = _ from remaining,show reasoningText complete = _ from inner,
      show said streamed = _ from text,show thought streamed = _ from reasoning,rejoin_pieces,Separated.intercalate_filled]
    constructor
    · rintro ⟨outer | gapless,inner | full⟩
      · exact ⟨.inl ends,.inl outer⟩
      · exact ⟨.inl ends,.inl outer⟩
      · exact ⟨.inl ends,.inl inner⟩
      · exact ⟨.inl ends,.inr ⟨full,gapless⟩⟩
    · rintro ⟨_,none_between | ⟨full,gapless⟩⟩
      · exact ⟨.inl none_between,.inl none_between⟩
      · exact ⟨.inr gapless,.inr full⟩
  · obtain ⟨s,alone⟩ := List.length_eq_one_iff.mp (closed.resolve_left ends)
    have mode : s.is_reasoning = true := by
      by_contra plain
      refine ends fun last same => ?_
      rw [alone] at same
      obtain rfl := Option.some.inj same
      simpa using plain
    obtain ⟨_,first⟩ := s
    obtain rfl : _ = true := mode
    obtain ⟨same,remaining,inner⟩ := apply_unclosed tags (String.ofList pieces.flatten) metadata first (by rwa [list])
    rw [list] at same remaining
    subst same
    rw [show remainingText complete = _ from remaining,show reasoningText complete = _ from inner,
      show said streamed = _ from text,show thought streamed = _ from reasoning,alone]
    have nothing : config.separator.intercalate (filled (outside [⟨true,pieces.flatten⟩])) = [] := rfl
    have everything : config.separator.intercalate (filled (inside [⟨true,pieces.flatten⟩])) = pieces.flatten := by
      by_cases empty : pieces.flatten = [] <;> simp [inside,filled,empty]
    rw [nothing,everything]
    constructor
    · rintro ⟨empty,_⟩
      refine ⟨.inr empty,.inr ⟨.inl (by rw [alone]; exact Nat.le_refl 1),?_⟩⟩
      rw [followers,alone]
      split_ifs <;> exact trivial
    · rintro ⟨ends' | empty,_⟩
      · exact absurd ends' ends
      · exact ⟨empty,empty.symm⟩

/-- Adjacent reasoning sections before the text: the complete result begins with a separator. -/
theorem adjacent_reasoning_separated :
    remainingText ((extract_reasoning "think".toList).apply [.Text "<think>x</think><think>y</think>b" none]) ≠
      said (((extract_reasoning "think".toList).apply_stream
        (textPart "1" [("<think>x</think><think>y</think>b",none)])).flatMap erase) := by
  decide

theorem reasoning_paths_agree_think :
    let config := extract_reasoning "think".toList
    remainingText (config.apply [.Text "a<think>x</think>b" none]) =
      said ((config.apply_stream (textPart "1" [("a<thi",none),("nk>x</think>b",none)])).flatMap erase) := by
  exact ((reasoning_paths_agree_iff "think".toList ['\n'] false "1" [("a<thi",none),("nk>x</think>b",none)] none
    (.inl (by decide)) (.inl (by decide))).mpr ⟨.inl (by decide),.inr ⟨.inl (by decide),by decide⟩⟩).1

end Ferrin.Middleware
