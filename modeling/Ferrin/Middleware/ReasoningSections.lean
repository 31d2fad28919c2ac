import Ferrin.Middleware.ReasoningSplit

/-!
A text is cut at its tags into sections, text and reasoning in turns. An
extraction tells the text sections as one text and every reasoning section as a
part of its own, with separators in between (`told_text`, `told_reasoning`).
-/
namespace Ferrin.Middleware
open List Extraction Emission
open Ferrin.Delimiter (find)

/-- A stretch of text between tags. -/
structure Section where
  is_reasoning : Bool
  text : List Char

def ExtractReasoning.tag (config : ExtractReasoning) (is_reasoning : Bool) : List Char :=
  if is_reasoning then config.closing_tag else config.opening_tag

def cut (config : ExtractReasoning) : Nat → Bool → List Char → List Section
  | 0,is_reasoning,text => [⟨is_reasoning,text⟩]
  | turns + 1,is_reasoning,text =>
    match find (config.tag is_reasoning) text with
    | none => [⟨is_reasoning,text⟩]
    | some i => ⟨is_reasoning,text.take i⟩ ::
      cut config turns (!is_reasoning) (text.drop (i + (config.tag is_reasoning).length))

def ExtractReasoning.sections (config : ExtractReasoning) (text : List Char) : List Section :=
  cut config (text.length + 1) config.start_with_reasoning text

def plainTexts (sections : List Section) : List (List Char) :=
  (sections.filter fun s => !s.is_reasoning && !s.text.isEmpty).map (·.text)

/-- The text of the sections outside the tags. Empty ones leave no separator. -/
def plainText (separator : List Char) (sections : List Section) : List Char :=
  separator.intercalate (plainTexts sections)

def reasoningTexts (separator : List Char) (told : Bool) : List Section → List (List Char)
  | [] => []
  | s :: rest =>
    if s.is_reasoning then
      (if s.text.isEmpty then [] else (if told then separator else []) ++ s.text) ::
        reasoningTexts separator (told || !s.text.isEmpty) rest
    else reasoningTexts separator told rest

theorem Tags.tag_ne {config : ExtractReasoning} (tags : Tags config) (mode : Bool) : config.tag mode ≠ [] := by
  unfold ExtractReasoning.tag
  split_ifs
  · exact tags.closing
  · exact tags.opening

/-! ### Telling sections -/

def Extraction.tell_section (separator text : List Char) (e : Extraction) (counter : UInt32) : Emission :=
  (e.publish separator text counter).andThen Extraction.close_reasoning

def Extraction.tell (separator : List Char) : List Section → Extraction → UInt32 → Emission
  | [],e,counter => e.start_text counter
  | [s],e,counter => (e.tell_section separator s.text counter).andThen Extraction.start_text
  | s :: rest,e,counter => (e.tell_section separator s.text counter).andThen fun e counter =>
      e.switch.tell separator rest counter

section
variable {config : ExtractReasoning} {e : Extraction} {counter : UInt32}

theorem cut_ne_nil (config : ExtractReasoning) (turns : Nat) (mode : Bool) (text : List Char) :
    cut config turns mode text ≠ [] := by
  cases turns with
  | zero => simp [cut]
  | succ =>
    rw [cut]
    split <;> simp

variable {separator text : List Char} {id : PartId} {metadata : Option ProviderMetadata}

theorem tell_cons {s : Section} {rest : List Section} (more : rest ≠ []) :
    e.tell separator (s :: rest) counter = (e.tell_section separator s.text counter).andThen fun e counter =>
      e.switch.tell separator rest counter := by
  cases rest with
  | nil => exact absurd rfl more
  | cons => rfl

theorem hold_andThen (rest : List Char) (f : Extraction → UInt32 → Emission) :
    (e.hold rest counter).andThen f = f { e with buffer := rest } counter := by
  simp [hold,andThen]

/-- Telling leaves the buffer alone. -/
def KeepsBuffer (f : Extraction → UInt32 → Emission) : Prop :=
  ∀ (e : Extraction) counter buffer, f { e with buffer } counter = (f e counter).andThen (Extraction.hold buffer)

theorem KeepsBuffer.comp {f g : Extraction → UInt32 → Emission} (first : KeepsBuffer f) (second : KeepsBuffer g) :
    KeepsBuffer fun e counter => (f e counter).andThen g := by
  intro e counter buffer
  dsimp only
  rw [first,andThen_assoc,andThen_assoc]
  refine andThen_congr ?_
  rw [← second,hold_andThen]

theorem keepsBuffer_publish (separator text : List Char) : KeepsBuffer (Extraction.publish separator text) := by
  intro e counter buffer
  rw [publish_buffer]
  simp [andThen,hold]

theorem keepsBuffer_close_reasoning : KeepsBuffer Extraction.close_reasoning := by
  intro e counter buffer
  rw [close_reasoning_buffer]
  simp [andThen,hold]

theorem keepsBuffer_start_text : KeepsBuffer Extraction.start_text := by
  intro e counter buffer
  unfold start_text
  cases delayed : e.delayed_text_start <;> simp [andThen,hold,delayed]

theorem keepsBuffer_tell (separator : List Char) (sections : List Section) :
    KeepsBuffer (Extraction.tell separator sections) := by
  induction sections with
  | nil => exact keepsBuffer_start_text
  | cons s rest ih =>
    have told := (keepsBuffer_publish separator s.text).comp keepsBuffer_close_reasoning
    cases rest with
    | nil => exact told.comp keepsBuffer_start_text
    | cons =>
      refine told.comp fun e counter buffer => ?_
      exact ih e.switch counter buffer

theorem finish_hold (separator rest : List Char) : (e.hold rest counter).andThen (Extraction.finish separator) =
    (e.tell separator [⟨e.is_reasoning,rest⟩] counter).andThen (Extraction.hold []) := by
  rw [← keepsBuffer_tell]
  simp [hold,finish,Extraction.tell,tell_section,andThen]

theorem absorb_finish (tags : Tags config) (turns : Nat) : ∀ (e : Extraction) (counter : UInt32),
    e.buffer.length < turns → ((e.absorb config counter).andThen (Extraction.finish config.separator)).erased =
      ((e.tell config.separator (cut config turns e.is_reasoning e.buffer) counter).andThen (Extraction.hold [])).erased := by
  induction turns with
  | zero => exact fun e counter impossible => absurd impossible (Nat.not_lt_zero _)
  | succ turns ih =>
    intro e counter bound
    have tag : config.tag e.is_reasoning = e.next_tag config := rfl
    rw [absorb_turn tags,turn,cut,tag]
    cases searched : Delimiter.scan (e.next_tag config) e.buffer with
    | found before after =>
      have shorter := Delimiter.scan_found_length searched (tags.next_tag_ne e)
      obtain ⟨i,place,isBefore,isAfter⟩ := Delimiter.scan_found searched
      rw [place]
      dsimp only
      rw [← isBefore,← isAfter,tell_cons (cut_ne_nil _ _ _ _),tell_section]
      simp only [andThen_assoc]
      refine andThen_erased ?_
      have mode : (e.publish config.separator before counter).extraction.is_reasoning = e.is_reasoning :=
        (publish_frame _ _).2
      generalize (e.publish config.separator before counter).extraction = published at mode
      generalize (e.publish config.separator before counter).counter = counter
      rw [cross,keepsBuffer_close_reasoning]
      simp only [andThen_assoc]
      refine andThen_erased ?_
      have closed_mode : (published.close_reasoning counter).extraction.is_reasoning = e.is_reasoning :=
        close_reasoning_frame.2.trans mode
      generalize (published.close_reasoning counter).extraction = closed at closed_mode
      generalize (published.close_reasoning counter).counter = counter
      have next := ih ({ closed with buffer := after }).switch counter (show after.length < turns by omega)
      have switched : ({ closed with buffer := after }).switch.is_reasoning = !e.is_reasoning := by
        simp [switch,closed_mode]
      have same : ({ closed with buffer := after }).switch = { closed.switch with buffer := after } := rfl
      rw [hold_andThen,next,switched,same,keepsBuffer_tell,andThen_assoc]
      refine andThen_erased ?_
      rw [hold_andThen]
      rfl
    | held before rest =>
      obtain ⟨absent,whole⟩ := Delimiter.scan_held searched
      rw [absent]
      dsimp only
      rw [andThen_assoc]
      have finished : (e.publish config.separator before counter).andThen
          (fun e counter => (e.hold rest counter).andThen (finish config.separator)) =
          ((e.publish config.separator before counter).andThen (publish config.separator rest)).andThen
            fun e counter => ((e.close_reasoning counter).andThen start_text).andThen (hold []) := by
        rw [andThen_assoc]
        refine andThen_congr ?_
        rw [finish_hold]
        simp only [Extraction.tell,tell_section,andThen_assoc]
      rw [finished,Extraction.tell,tell_section,andThen_assoc,andThen_assoc,← whole]
      have closes : Erasable fun e counter => (e.close_reasoning counter).andThen fun e counter =>
          (e.start_text counter).andThen (hold []) :=
        erasable_close_reasoning.comp (erasable_start_text.comp (erasable_hold []))
      have joined := closes.andThen (@publish_append e counter config.separator before rest)
      simp only [andThen_assoc] at joined ⊢
      exact joined.symm

def said (atoms : List Atom) : List Char :=
  atoms.filterMap fun
    | .Text c => some c
    | _ => none

def untilEnd : List Atom → List Char
  | .Reasoning c :: rest => c :: untilEnd rest
  | _ => []

def reasoned : List Atom → List (List Char)
  | [] => []
  | .ReasoningStart :: rest => untilEnd rest :: reasoned rest
  | _ :: rest => reasoned rest

/-- Modes in turns. -/
def Alternate : Bool → List Section → Prop
  | _,[] => True
  | mode,s :: rest => s.is_reasoning = mode ∧ Alternate (!mode) rest

theorem cut_alternate (turns : Nat) : ∀ (mode : Bool) (text : List Char), Alternate mode (cut config turns mode text) := by
  induction turns with
  | zero => exact fun mode text => ⟨rfl,trivial⟩
  | succ _ ih =>
    intro mode text
    rw [cut]
    split
    · exact ⟨rfl,trivial⟩
    · exact ⟨rfl,ih _ _⟩

/-- An extraction where a section begins: no reasoning part is open, and a separator stands wherever one is due. -/
structure Begins (e : Extraction) : Prop where
  closed : e.reasoning_id = none
  separated : e.after_switch = true ∨ (e.is_first_reasoning = true ∧ e.is_first_text = true)
  delayed : ∀ start, e.delayed_text_start = some start → erase start = [.TextStart]

@[simp] theorem erase_text_delta (id : PartId) (delta : String) (metadata : Option ProviderMetadata) :
    erase (.TextDelta id delta metadata) = delta.toList.map .Text := rfl

@[simp] theorem said_append (first second : List Atom) : said (first ++ second) = said first ++ said second :=
  filterMap_append

@[simp] theorem said_text (text : List Char) : said (text.map .Text) = text := by
  simp [said]

@[simp] theorem said_reasoning (text : List Char) : said (text.map .Reasoning) = [] := by
  simp [said]

theorem said_part (text : List Char) : said (.ReasoningStart :: (text.map .Reasoning ++ [.ReasoningEnd])) = [] := by
  show said (text.map .Reasoning ++ [.ReasoningEnd]) = []
  rw [said_append,said_reasoning]
  rfl

theorem reasoned_texts (text : List Char) (rest : List Atom) : reasoned (text.map .Text ++ rest) = reasoned rest := by
  induction text with
  | nil => rfl
  | cons _ _ ih => exact ih

theorem reasoned_part (text : List Char) (rest : List Atom) :
    reasoned (.ReasoningStart :: (text.map .Reasoning ++ .ReasoningEnd :: rest)) = text :: reasoned rest := by
  rw [reasoned]
  induction text with
  | nil => rfl
  | cons _ _ ih =>
    obtain ⟨same,others⟩ := List.cons.inj ih
    simp only [map_cons,cons_append,untilEnd,reasoned,same,others]

theorem tell_reasoning (begins : Begins e) (mode : e.is_reasoning = true) :
    (e.tell_section separator text counter).out.flatMap erase =
      .ReasoningStart :: ((if text = [] then [] else (if e.is_first_reasoning then [] else separator) ++ text).map
        .Reasoning ++ [.ReasoningEnd]) ∧
    (e.tell_section separator text counter).extraction = { e with
      is_first_reasoning := e.is_first_reasoning && text.isEmpty
      after_switch := e.after_switch && text.isEmpty } := by
  obtain ⟨first,_,_,_,_,_,_,_,_⟩ := e
  obtain ⟨closed,separated,starts⟩ := begins
  dsimp only at mode closed separated starts ⊢
  subst mode closed
  by_cases empty : text = []
  · simp [empty,tell_section,publish,start_reasoning,andThen,
      close_reasoning,end_reasoning,erase]
  · rcases separated with rfl | ⟨rfl,rfl⟩
    · cases first <;> simp [empty,tell_section,publish,start_reasoning,
        andThen,close_reasoning,end_reasoning,erase]
    · simp [empty,tell_section,publish,start_reasoning,andThen,
        close_reasoning,end_reasoning,erase]

theorem tell_text (begins : Begins e) (mode : e.is_reasoning = false) :
    (e.tell_section separator text counter).out.flatMap erase =
      (if text = [] then [] else (if e.delayed_text_start.isSome then [.TextStart] else []) ++
        ((if e.is_first_text then [] else separator) ++ text).map .Text) ∧
    (e.tell_section separator text counter).extraction = { e with
      is_first_text := e.is_first_text && text.isEmpty
      after_switch := e.after_switch && text.isEmpty
      delayed_text_start := if text = [] then e.delayed_text_start else none
      text_started := e.text_started || (e.delayed_text_start.isSome && !text.isEmpty) } := by
  obtain ⟨_,first_text,_,_,_,_,_,delayed,_⟩ := e
  obtain ⟨closed,separated,starts⟩ := begins
  dsimp only at mode closed separated starts ⊢
  subst mode closed
  by_cases empty : text = []
  · simp [empty,tell_section,publish,andThen,close_reasoning]
  · cases delayed with
    | none =>
      rcases separated with rfl | ⟨rfl,rfl⟩
      · cases first_text <;> simp [empty,tell_section,publish,start_text,
          andThen,close_reasoning]
      · simp [empty,tell_section,publish,start_text,andThen,
          close_reasoning]
    | some start =>
      have starts := starts start rfl
      rcases separated with rfl | ⟨rfl,rfl⟩
      · cases first_text <;> simp [empty,tell_section,publish,start_text,
          andThen,close_reasoning,starts]
      · simp [empty,tell_section,publish,start_text,andThen,
          close_reasoning,starts]

def joined (separator : List Char) (first : Bool) (texts : List (List Char)) : List Char :=
  if first then separator.intercalate texts else texts.flatMap (separator ++ ·)

theorem joined_cons (separator : List Char) (first : Bool) (text : List Char) (rest : List (List Char)) :
    joined separator first (text :: rest) = (if first then [] else separator) ++ text ++ joined separator false rest := by
  cases first with
  | false => simp [joined]
  | true =>
    have spread : separator.intercalate (text :: rest) = text ++ rest.flatMap (separator ++ ·) := by
      induction rest generalizing text with
      | nil => simp [intercalate]
      | cons _ _ ih => rw [intercalate_cons_cons,ih]; simp
    simp [joined,spread]

theorem tell_out (separator : List Char) (s : Section) (rest : List Section) :
    (e.tell separator (s :: rest) counter).out = (e.tell_section separator s.text counter).out ++
      ((e.tell_section separator s.text counter).extraction.switch.tell separator rest
        (e.tell_section separator s.text counter).counter).out := by
  cases rest with
  | cons => rfl
  | nil =>
    simp only [Extraction.tell,andThen,start_text,switch]
    cases (e.tell_section separator s.text counter).extraction.delayed_text_start <;> rfl

theorem begins_reasoning (begins : Begins e) (mode : e.is_reasoning = true) :
    Begins (e.tell_section separator text counter).extraction.switch := by
  rw [(tell_reasoning begins mode).2]
  exact ⟨begins.closed,.inl rfl,begins.delayed⟩

theorem begins_text (begins : Begins e) (mode : e.is_reasoning = false) :
    Begins (e.tell_section separator text counter).extraction.switch := by
  rw [(tell_text begins mode).2]
  refine ⟨begins.closed,.inl rfl,fun start delayed => ?_⟩
  by_cases empty : text = []
  · exact begins.delayed start (by simpa [switch,empty] using delayed)
  · simp [switch,empty] at delayed

theorem told (separator : List Char) (sections : List Section) : ∀ (e : Extraction) (counter : UInt32), Begins e →
    Alternate e.is_reasoning sections →
    said ((e.tell separator sections counter).out.flatMap erase) = joined separator e.is_first_text (plainTexts sections) ∧
      reasoned ((e.tell separator sections counter).out.flatMap erase) =
        reasoningTexts separator (!e.is_first_reasoning) sections := by
  induction sections with
  | nil =>
    intro e counter begins _
    have nothing : joined separator e.is_first_text (plainTexts []) = [] := by
      unfold joined plainTexts
      split_ifs <;> simp [intercalate]
    rw [nothing,Extraction.tell,start_text]
    cases delayed : e.delayed_text_start with
    | none => exact ⟨rfl,rfl⟩
    | some start =>
      simp only [flatMap_singleton,begins.delayed start delayed]
      exact ⟨rfl,rfl⟩
  | cons s rest ih =>
    intro e counter begins alternates
    obtain ⟨mode,alternate⟩ := alternates
    rw [tell_out,flatMap_append]
    cases reasoning : e.is_reasoning with
    | true =>
      rw [reasoning] at mode alternate
      obtain ⟨out,extraction⟩ := @tell_reasoning e counter separator s.text begins reasoning
      have next : Begins (e.tell_section separator s.text counter).extraction.switch := begins_reasoning begins reasoning
      obtain ⟨text,parts⟩ := ih _ (e.tell_section separator s.text counter).counter next (by
        rw [extraction]
        simpa [switch,reasoning] using alternate)
      have flags : (e.tell_section separator s.text counter).extraction.switch.is_first_text = e.is_first_text ∧
          (!(e.tell_section separator s.text counter).extraction.switch.is_first_reasoning) =
            (!e.is_first_reasoning || !s.text.isEmpty) := by
        rw [extraction]
        exact ⟨rfl,Bool.not_and _ _⟩
      rw [flags.1] at text
      rw [flags.2] at parts
      constructor
      · rw [said_append,out,said_part,text,plainTexts,plainTexts,filter_cons_of_neg (by simp [mode])]
        rfl
      · rw [out,cons_append,append_assoc,singleton_append,reasoned_part,parts,reasoningTexts,if_pos mode]
        cases e.is_first_reasoning <;> simp
    | false =>
      rw [reasoning] at mode alternate
      obtain ⟨out,extraction⟩ := @tell_text e counter separator s.text begins reasoning
      have next : Begins (e.tell_section separator s.text counter).extraction.switch := begins_text begins reasoning
      obtain ⟨text,parts⟩ := ih _ (e.tell_section separator s.text counter).counter next (by
        rw [extraction]
        simpa [switch,reasoning] using alternate)
      have flags : (e.tell_section separator s.text counter).extraction.switch.is_first_text =
            (e.is_first_text && s.text.isEmpty) ∧
          (e.tell_section separator s.text counter).extraction.switch.is_first_reasoning = e.is_first_reasoning := by
        rw [extraction]
        exact ⟨rfl,rfl⟩
      rw [flags.1] at text
      rw [flags.2] at parts
      constructor
      · rw [said_append,text,out]
        by_cases empty : s.text = []
        · rw [plainTexts,plainTexts,filter_cons_of_neg (by simp [empty])]
          simp [empty,said]
        · have told : plainTexts (s :: rest) = s.text :: plainTexts rest := by
            rw [plainTexts,filter_cons_of_pos (by simp [empty,mode])]
            rfl
          have start : said (if e.delayed_text_start.isSome then [.TextStart] else []) = [] := by
            split_ifs <;> rfl
          have flag : (e.is_first_text && s.text.isEmpty) = false := by simp [empty]
          rw [told,joined_cons,if_neg empty,said_append,start,said_text,flag,nil_append]
      · have skipped : reasoningTexts separator (!e.is_first_reasoning) (s :: rest) =
            reasoningTexts separator (!e.is_first_reasoning) rest := by
          rw [reasoningTexts,if_neg (by simp [mode])]
        rw [out,skipped,← parts]
        by_cases empty : s.text = []
        · simp [empty]
        · rw [if_neg empty,append_assoc]
          cases e.delayed_text_start with
          | none => exact reasoned_texts _ _
          | some => exact reasoned_texts _ _

/-! ### The extraction of a text part -/

def Extraction.begun (config : ExtractReasoning) (id : PartId) (metadata : Option ProviderMetadata) : Extraction :=
  { Extraction.new id config.start_with_reasoning with delayed_text_start := some (.TextStart id metadata) }

def Extraction.whole (config : ExtractReasoning) (id : PartId) (metadata : Option ProviderMetadata)
    (text : List Char) : Emission :=
  ((Extraction.begun config id metadata).process_delta config text 0).andThen (Extraction.finish config.separator)

theorem begins_begun : Begins (Extraction.begun config id metadata) := by
  refine ⟨rfl,.inr ⟨rfl,rfl⟩,fun start delayed => ?_⟩
  cases delayed
  rfl

theorem whole_tell (tags : Tags config) (id : PartId) (metadata : Option ProviderMetadata) (text : List Char) :
    (Extraction.whole config id metadata text).out.flatMap erase =
      (({ Extraction.begun config id metadata with buffer := text }).tell config.separator
        (config.sections text) 0).out.flatMap erase := by
  have searched := absorb_finish tags (text.length + 1)
    { begun config id metadata with buffer := text } 0 (Nat.lt_succ_self _)
  refine (congrArg Prod.snd searched).trans ?_
  simp only [erased,andThen,hold,append_nil]
  rfl

theorem begins_whole : Begins { Extraction.begun config id metadata with buffer := text } :=
  ⟨rfl,.inr ⟨rfl,rfl⟩,(@begins_begun config id metadata).delayed⟩

theorem told_whole (tags : Tags config) (id : PartId) (metadata : Option ProviderMetadata) (text : List Char) :
    said ((Extraction.whole config id metadata text).out.flatMap erase) =
        plainText config.separator (config.sections text) ∧
      reasoned ((Extraction.whole config id metadata text).out.flatMap erase) =
        reasoningTexts config.separator false (config.sections text) := by
  rw [whole_tell tags]
  exact told config.separator (config.sections text) _ 0 begins_whole (cut_alternate _ _ _)

variable (atoms : List Atom)

theorem untilEnd_append_end : untilEnd (atoms ++ [.TextEnd]) = untilEnd atoms := by
  induction atoms with
  | nil => rfl
  | cons atom _ ih => cases atom <;> simp [untilEnd,ih]

theorem reasoned_append_end : reasoned (atoms ++ [.TextEnd]) = reasoned atoms := by
  induction atoms with
  | nil => rfl
  | cons atom _ ih => cases atom <;> simp [reasoned,ih,untilEnd_append_end]

theorem reasoned_length : (reasoned atoms).length = atoms.count .ReasoningStart := by
  induction atoms with
  | nil => rfl
  | cons atom _ ih => cases atom <;> simp [reasoned,ih]

theorem reasoningTexts_length (separator : List Char) (told : Bool) (sections : List Section) :
    (reasoningTexts separator told sections).length = sections.countP (·.is_reasoning) := by
  induction sections generalizing told with
  | nil => rfl
  | cons s _ ih =>
    rw [reasoningTexts]
    cases mode : s.is_reasoning <;> simp [mode,ih]

end

end Ferrin.Middleware
