import Ferrin.Middleware.ExtractReasoning

/-!
What an extraction emits, the ids of reasoning parts and the grouping into
deltas aside, is the same for every split of its text (`process_delta_append`).
-/
namespace Ferrin.Middleware
open Extraction
open Ferrin.Delimiter (find tail_start Headed Scan)

/-- The parts of a stream without ids, metadata and the grouping into deltas. -/
inductive Atom where
  | TextStart
  | Text (c : Char)
  | TextEnd
  | ReasoningStart
  | Reasoning (c : Char)
  | ReasoningEnd
  deriving DecidableEq

def erase : StreamPart → List Atom
  | .TextStart .. => [.TextStart]
  | .TextDelta _ delta _ => delta.toList.map .Text
  | .TextEnd .. => [.TextEnd]
  | .ReasoningStart .. => [.ReasoningStart]
  | .ReasoningDelta _ delta _ => delta.toList.map .Reasoning
  | .ReasoningEnd .. => [.ReasoningEnd]
  | _ => []

def Extraction.anonymous (e : Extraction) : Extraction := { e with reasoning_id := e.reasoning_id.map fun _ => "" }

def Emission.erased (m : Emission) : Extraction × List Atom := (m.extraction.anonymous,m.out.flatMap erase)

theorem Emission.andThen_assoc (m : Emission) (f g : Extraction → UInt32 → Emission) :
    (m.andThen f).andThen g = m.andThen fun e counter => (f e counter).andThen g := by
  simp [andThen]

variable {m : Emission} {f g : Extraction → UInt32 → Emission} {e e' : Extraction}

theorem Emission.andThen_congr
    (same : f m.extraction m.counter = g m.extraction m.counter) : m.andThen f = m.andThen g := by
  rw [andThen,andThen,same]

/-- What a step emits without ids does not depend on them, nor on the counter. -/
def Erasable (f : Extraction → UInt32 → Emission) : Prop :=
  ∀ e e' counter counter', e.anonymous = e'.anonymous → (f e counter).erased = (f e' counter').erased

theorem Erasable.andThen (erasable : Erasable f) {m' : Emission}
    (same : m.erased = m'.erased) : (m.andThen f).erased = (m'.andThen f).erased := by
  obtain ⟨anonymous,out⟩ := Prod.mk.inj same
  have next := erasable _ _ m.counter m'.counter anonymous
  obtain ⟨anonymous,later⟩ := Prod.mk.inj next
  simp only [Emission.erased,Emission.andThen,List.flatMap_append,out,later,anonymous]

theorem Erasable.comp (first : Erasable f) (second : Erasable g) :
    Erasable fun e counter => (f e counter).andThen g :=
  fun e e' counter counter' same => second.andThen (first e e' counter counter' same)

theorem anonymous_eq (same : e.anonymous = e'.anonymous) :
    ∃ id, e' = { e with reasoning_id := id } ∧ id.isSome = e.reasoning_id.isSome := by
  obtain ⟨a,b,c,d,f,g,h,i,j⟩ := e
  obtain ⟨_,_,_,_,_,g',_,_,_⟩ := e'
  simp only [anonymous,Extraction.mk.injEq] at same
  obtain ⟨rfl,rfl,rfl,rfl,rfl,ids,rfl,rfl,rfl⟩ := same
  refine ⟨g',rfl,?_⟩
  have := congrArg Option.isSome ids
  simpa using this.symm

section
variable {config : ExtractReasoning} {e : Extraction} {counter : UInt32}

theorem erasable_start_text : Erasable Extraction.start_text := by
  intro e e' counter counter' same
  obtain ⟨_,rfl,_⟩ := anonymous_eq same
  unfold start_text
  cases delayed : e.delayed_text_start <;> simp_all [Emission.erased,anonymous]

theorem erasable_end_reasoning : Erasable Extraction.end_reasoning := by
  intro e e' counter counter' same
  obtain ⟨id,rfl,_⟩ := anonymous_eq same
  unfold end_reasoning start_reasoning
  cases known : e.reasoning_id <;> cases id <;> simp_all [Emission.erased,anonymous,erase]

theorem erasable_close_reasoning : Erasable Extraction.close_reasoning := by
  intro e e' counter counter' same
  have mode : e.is_reasoning = e'.is_reasoning := by
    show e.anonymous.is_reasoning = e'.anonymous.is_reasoning
    rw [same]
  unfold close_reasoning
  rw [← mode]
  split_ifs
  · exact erasable_end_reasoning _ _ _ _ same
  · exact Prod.ext same rfl

theorem erasable_publish (separator text : List Char) : Erasable (Extraction.publish separator text) := by
  intro e e' counter counter' same
  obtain ⟨id,rfl,_⟩ := anonymous_eq same
  unfold publish
  by_cases empty : text = []
  · simp [empty,Emission.erased,same]
  · simp only [if_neg empty]
    cases mode : e.is_reasoning with
    | true =>
      unfold start_reasoning
      cases known : e.reasoning_id <;> cases id <;> simp_all [Emission.erased,anonymous,erase]
    | false =>
      unfold start_text
      cases delayed : e.delayed_text_start <;> simp_all [Emission.erased,anonymous,erase]

theorem publish_append (separator first second : List Char) :
    (e.publish separator (first ++ second) counter).erased =
      ((e.publish separator first counter).andThen (Extraction.publish separator second)).erased := by
  by_cases none_first : first = []
  · simp [none_first,publish,Emission.andThen,Emission.erased]
  by_cases none_second : second = []
  · simp [none_second,publish,Emission.andThen,Emission.erased]
  have whole : first ++ second ≠ [] := by simp [none_first]
  unfold publish Emission.andThen
  rw [if_neg whole,if_neg none_first]
  cases mode : e.is_reasoning with
  | true =>
    unfold start_reasoning
    cases known : e.reasoning_id <;>
      simp [none_second,mode,known,Emission.erased,anonymous,erase]
  | false =>
    unfold start_text
    cases delayed : e.delayed_text_start <;>
      simp [none_second,mode,delayed,Emission.erased,anonymous,erase]

theorem publish_buffer (separator text buffer : List Char) : ({ e with buffer }).publish separator text counter =
    ⟨{ (e.publish separator text counter).extraction with buffer },(e.publish separator text counter).counter,
      (e.publish separator text counter).out⟩ := by
  obtain ⟨_,_,_,mode,_,id,_,delayed,_⟩ := e
  by_cases empty : text = []
  · simp [publish,empty]
  · cases mode <;> cases id <;> cases delayed <;>
      simp [publish,start_reasoning,start_text,empty]

theorem publish_frame (separator text : List Char) :
    (e.publish separator text counter).extraction.buffer = e.buffer ∧
      (e.publish separator text counter).extraction.is_reasoning = e.is_reasoning := by
  unfold publish start_reasoning start_text
  split_ifs
  · exact ⟨rfl,rfl⟩
  · cases e.reasoning_id <;> exact ⟨rfl,rfl⟩
  · cases e.delayed_text_start <;> exact ⟨rfl,rfl⟩

theorem close_reasoning_frame : (e.close_reasoning counter).extraction.buffer = e.buffer ∧
    (e.close_reasoning counter).extraction.is_reasoning = e.is_reasoning := by
  unfold close_reasoning end_reasoning start_reasoning
  split_ifs
  · cases e.reasoning_id <;> exact ⟨rfl,rfl⟩
  · exact ⟨rfl,rfl⟩

/-! ### The loop over the buffer -/

/-- The tags begin with a character that does not occur in them again. -/
structure Tagged (config : ExtractReasoning) : Prop where
  opening : Headed config.opening_tag
  closing : Headed config.closing_tag

theorem Tagged.next_tag (tagged : Tagged config) (e : Extraction) : Headed (e.next_tag config) := by
  unfold Extraction.next_tag
  split_ifs
  · exact tagged.closing
  · exact tagged.opening

/-- There is something to search for. -/
structure Tags (config : ExtractReasoning) : Prop where
  opening : config.opening_tag ≠ []
  closing : config.closing_tag ≠ []

theorem Tagged.tags (tagged : Tagged config) : Tags config := ⟨tagged.opening.ne_nil,tagged.closing.ne_nil⟩

theorem Tags.next_tag_ne (tags : Tags config) (e : Extraction) : e.next_tag config ≠ [] := by
  unfold Extraction.next_tag
  split_ifs
  · exact tags.closing
  · exact tags.opening

/-- The loop, with as many turns as it can take. -/
def Extraction.absorb (config : ExtractReasoning) (e : Extraction) (counter : UInt32) : Emission :=
  e.scan config (e.buffer.length + 1) counter

/-- What follows a tag that was found. -/
def Extraction.cross (after : List Char) (again : Extraction → UInt32 → Emission) (e : Extraction) (counter : UInt32) :
    Emission :=
  (({ e with buffer := after }).close_reasoning counter).andThen fun e counter => again e.switch counter

/-- The rest of the text is held back. -/
def Extraction.hold (rest : List Char) (e : Extraction) (counter : UInt32) : Emission :=
  ⟨{ e with buffer := rest },counter,[]⟩

/-- One turn of the loop, by what the search comes to. -/
def Extraction.turn (config : ExtractReasoning) (again : Extraction → UInt32 → Emission) (e : Extraction)
    (counter : UInt32) : Emission :=
  match Delimiter.scan (e.next_tag config) e.buffer with
  | .found before after => (e.publish config.separator before counter).andThen (Extraction.cross after again)
  | .held before rest => (e.publish config.separator before counter).andThen (Extraction.hold rest)


theorem scan_turn (tags : Tags config) (turns : Nat) : e.scan config (turns + 1) counter =
    e.turn config (Extraction.scan config turns) counter := by
  rw [scan,turn,potential_start_index,if_neg (tags.next_tag_ne e),Delimiter.scan]
  cases place : find (e.next_tag config) e.buffer with
  | some =>
    have fits := (Delimiter.find_some place).2
    refine Emission.andThen_congr ?_
    simp only [(publish_frame _ _).1,if_pos fits]
    rfl
  | none =>
    cases tail : tail_start (e.next_tag config) e.buffer with
    | some =>
      have short := Delimiter.held_short place tail
      refine Emission.andThen_congr ?_
      simp only [(publish_frame _ _).1,if_neg (Nat.not_le.mpr short)]
      rfl
    | none =>
      simp only [Option.none_or]
      rw [publish_buffer]
      simp [Emission.andThen,hold]

variable {again : Extraction → UInt32 → Emission}

theorem cross_congr {after : List Char} {again' : Extraction → UInt32 → Emission}
    (same : ∀ e' counter', e'.buffer = after → again e' counter' = again' e' counter') :
    e.cross after again counter = e.cross after again' counter :=
  Emission.andThen_congr (same _ _ close_reasoning_frame.1)

theorem scan_turns (tags : Tags config) (turns : Nat) : ∀ (e : Extraction) (counter : UInt32),
    e.buffer.length < turns → e.scan config turns counter = e.absorb config counter := by
  induction turns using Nat.strongRecOn with
  | ind turns ih =>
    intro e counter enough
    obtain ⟨turns,rfl⟩ := Nat.exists_eq_succ_of_ne_zero (Nat.ne_of_gt (Nat.zero_lt_of_lt enough))
    rw [absorb,Nat.succ_eq_add_one,scan_turn tags,scan_turn tags,turn,turn]
    cases found : Delimiter.scan (e.next_tag config) e.buffer with
    | held => rfl
    | found =>
      have shorter := Delimiter.scan_found_length found (tags.next_tag_ne e)
      refine Emission.andThen_congr (cross_congr fun e' counter' same => ?_)
      rw [ih turns (Nat.lt_succ_self turns) e' counter' (by rw [same]; omega)]
      by_cases last : e.buffer.length = turns
      · rw [last,ih turns (Nat.lt_succ_self turns) e' counter' (by rw [same]; omega)]
      · rw [ih e.buffer.length (by omega) e' counter' (by rw [same]; exact shorter)]

theorem absorb_turn (tags : Tags config) :
    e.absorb config counter = e.turn config (Extraction.absorb config) counter := by
  rw [absorb,scan_turn tags,turn,turn]
  cases found : Delimiter.scan (e.next_tag config) e.buffer with
  | held => rfl
  | found =>
    have shorter := Delimiter.scan_found_length found (tags.next_tag_ne e)
    refine Emission.andThen_congr (cross_congr fun e' counter' same => ?_)
    exact scan_turns tags _ e' counter' (by rw [same]; exact shorter)

theorem absorb_nil (tags : Tags config) (empty : e.buffer = []) : e.absorb config counter = ⟨e,counter,[]⟩ := by
  obtain ⟨_,_,_,_,_,_,_,_,_⟩ := e
  subst empty
  rw [absorb_turn tags,turn,Delimiter.scan_nil (tags.next_tag_ne _)]
  simp [publish,Emission.andThen,hold]

theorem process_delta_absorb (delta : List Char) :
    e.process_delta config delta counter = ({ e with buffer := e.buffer ++ delta }).absorb config counter := rfl

theorem anonymous_buffer (same : e.anonymous = e'.anonymous) (buffer : List Char) :
    ({ e with buffer }).anonymous = ({ e' with buffer }).anonymous := by
  obtain ⟨id,rfl,_⟩ := anonymous_eq same
  have ids : e.reasoning_id.map (fun _ => "") = id.map fun _ => "" := congrArg reasoning_id same
  simp only [anonymous,ids]

theorem erasable_hold (rest : List Char) : Erasable (Extraction.hold rest) :=
  fun _ _ _ _ same => Prod.ext (anonymous_buffer same rest) rfl

theorem erasable_cross (erasable : Erasable again) (after : List Char) : Erasable (Extraction.cross after again) := by
  intro e e' counter counter' same
  have switched : Erasable fun e counter => again e.switch counter := by
    intro e e' counter counter' same
    refine erasable _ _ _ _ ?_
    obtain ⟨id,rfl,_⟩ := anonymous_eq same
    have ids : e.reasoning_id.map (fun _ => "") = id.map fun _ => "" := congrArg reasoning_id same
    simp only [anonymous,switch,ids]
  exact switched.andThen (erasable_close_reasoning _ _ _ _ (anonymous_buffer same after))

theorem erasable_turn (erasable : Erasable again) : Erasable (Extraction.turn config again) := by
  intro e e' counter counter' same
  have search : Delimiter.scan (e.next_tag config) e.buffer = Delimiter.scan (e'.next_tag config) e'.buffer := by
    obtain ⟨_,rfl,_⟩ := anonymous_eq same
    rfl
  unfold turn
  rw [← search]
  cases Delimiter.scan (e.next_tag config) e.buffer with
  | found _ after => exact (erasable_cross erasable after).andThen (erasable_publish _ _ _ _ _ _ same)
  | held _ rest => exact (erasable_hold rest).andThen (erasable_publish _ _ _ _ _ _ same)

theorem erasable_scan (tags : Tags config) (turns : Nat) : Erasable (Extraction.scan config turns) := by
  induction turns with
  | zero => exact fun _ _ _ _ same => Prod.ext same rfl
  | succ _ ih =>
    intro e e' counter counter' same
    rw [scan_turn tags,scan_turn tags]
    exact erasable_turn ih _ _ _ _ same

theorem erasable_absorb (tags : Tags config) : Erasable (Extraction.absorb config) := by
  intro e e' counter counter' same
  have buffer : e.buffer = e'.buffer := by
    show e.anonymous.buffer = e'.anonymous.buffer
    rw [same]
  unfold absorb
  rw [buffer]
  exact erasable_scan tags _ _ _ _ _ same

theorem erasable_process_delta (tags : Tags config) (delta : List Char) :
    Erasable (Extraction.process_delta config delta) := by
  intro e e' counter counter' same
  have buffer : e.buffer = e'.buffer := by
    show e.anonymous.buffer = e'.anonymous.buffer
    rw [same]
  rw [process_delta_absorb,process_delta_absorb,buffer]
  exact erasable_absorb tags _ _ _ _ (anonymous_buffer same _)

theorem erasable_finish (separator : List Char) : Erasable (Extraction.finish separator) := by
  intro e e' counter counter' same
  have buffer : e.buffer = e'.buffer := by
    show e.anonymous.buffer = e'.anonymous.buffer
    rw [same]
  unfold finish
  rw [buffer]
  exact erasable_start_text.andThen
    (erasable_close_reasoning.andThen (erasable_publish _ _ _ _ _ _ (anonymous_buffer same [])))

theorem publish_andThen_buffer {separator text buffer : List Char}
    (overwrites : ∀ (e : Extraction) counter, f { e with buffer } counter = f e counter) :
    (({ e with buffer }).publish separator text counter).andThen f = (e.publish separator text counter).andThen f := by
  rw [publish_buffer]
  simp only [Emission.andThen,overwrites]

theorem close_reasoning_buffer (buffer : List Char) : ({ e with buffer }).close_reasoning counter =
    ⟨{ (e.close_reasoning counter).extraction with buffer },(e.close_reasoning counter).counter,
      (e.close_reasoning counter).out⟩ := by
  obtain ⟨_,_,_,mode,_,id,_,_,_⟩ := e
  cases mode <;> cases id <;> rfl

theorem Emission.andThen_erased (same : (f m.extraction m.counter).erased = (g m.extraction m.counter).erased) :
    (m.andThen f).erased = (m.andThen g).erased := by
  obtain ⟨anonymous,out⟩ := Prod.mk.inj same
  simp only [Emission.erased,Emission.andThen,List.flatMap_append,out,anonymous]

theorem absorb_append (tagged : Tagged config) (more : List Char) : ∀ (n : Nat) (e : Extraction) (counter : UInt32),
    e.buffer.length < n → (({ e with buffer := e.buffer ++ more }).absorb config counter).erased =
      ((e.absorb config counter).andThen (Extraction.process_delta config more)).erased := by
  intro n
  induction n with
  | zero => exact fun e counter impossible => absurd impossible (Nat.not_lt_zero _)
  | succ n ih =>
    intro e counter bound
    rw [absorb_turn tagged.tags,absorb_turn tagged.tags,turn,turn]
    dsimp only
    rw [show Extraction.next_tag config { e with buffer := e.buffer ++ more } = e.next_tag config from rfl]
    cases first : Delimiter.scan (e.next_tag config) e.buffer with
    | found before after =>
      have shorter := Delimiter.scan_found_length first (tagged.tags.next_tag_ne e)
      rw [Delimiter.scan_append_found first more]
      dsimp only
      rw [publish_andThen_buffer fun _ _ => rfl,Emission.andThen_assoc]
      refine Emission.andThen_erased ?_
      generalize (e.publish config.separator before counter).extraction = published
      generalize (e.publish config.separator before counter).counter = counter
      rw [cross,cross,Emission.andThen_assoc]
      have appended : ({ published with buffer := after ++ more }).close_reasoning counter =
          ⟨{ (({ published with buffer := after }).close_reasoning counter).extraction with buffer := after ++ more },
            (({ published with buffer := after }).close_reasoning counter).counter,
            (({ published with buffer := after }).close_reasoning counter).out⟩ :=
        @close_reasoning_buffer { published with buffer := after } counter (after ++ more)
      rw [appended]
      have buffer : (({ published with buffer := after }).close_reasoning counter).extraction.buffer = after :=
        close_reasoning_frame.1
      generalize ({ published with buffer := after }).close_reasoning counter = closed at buffer
      have next := ih closed.extraction.switch closed.counter (by
        show closed.extraction.buffer.length < n
        rw [buffer]
        omega)
      have same : { closed.extraction.switch with buffer := closed.extraction.switch.buffer ++ more } =
          switch { closed.extraction with buffer := after ++ more } := by
        rw [← buffer]
        rfl
      rw [same] at next
      obtain ⟨anonymous,out⟩ := Prod.mk.inj next
      exact Prod.ext anonymous (by simp only [Emission.erased,Emission.andThen,List.flatMap_append,out])
    | held before rest =>
      rw [Delimiter.scan_append_held (tagged.next_tag e) first more]
      dsimp only
      rw [Emission.andThen_assoc]
      have held : (e.publish config.separator before counter).andThen
          (fun e counter => (e.hold rest counter).andThen (Extraction.process_delta config more)) =
          (e.publish config.separator before counter).andThen fun e counter =>
            ({ e with buffer := rest ++ more }).turn config (absorb config) counter := by
        refine Emission.andThen_congr ?_
        rw [← absorb_turn tagged.tags]
        simp [hold,Emission.andThen,process_delta_absorb]
      rw [held]
      have mode : ∀ buffer, Extraction.next_tag config
          { (e.publish config.separator before counter).extraction with buffer } = e.next_tag config := by
        intro buffer
        simp only [Extraction.next_tag,(publish_frame _ _).2]
      have second : (e.publish config.separator before counter).andThen (fun e counter =>
          ({ e with buffer := rest ++ more }).turn config (absorb config) counter) =
          (e.publish config.separator before counter).andThen fun e' counter =>
            match Delimiter.scan (e.next_tag config) (rest ++ more) with
            | .found before after => (e'.publish config.separator before counter).andThen
                (cross after (absorb config))
            | .held before rest => (e'.publish config.separator before counter).andThen (hold rest) := by
        refine Emission.andThen_congr ?_
        rw [turn,mode]
        dsimp only
        cases Delimiter.scan (e.next_tag config) (rest ++ more) with
        | found => exact publish_andThen_buffer fun _ _ => rfl
        | held => exact publish_andThen_buffer fun _ _ => rfl
      rw [second]
      cases Delimiter.scan (e.next_tag config) (rest ++ more) with
      | found _ after =>
        dsimp only [Scan.prepend]
        rw [publish_andThen_buffer fun _ _ => rfl]
        rw [← Emission.andThen_assoc]
        exact (erasable_cross (erasable_absorb tagged.tags) after).andThen (publish_append _ _ _)
      | held _ rest =>
        dsimp only [Scan.prepend]
        rw [publish_andThen_buffer fun _ _ => rfl]
        rw [← Emission.andThen_assoc]
        exact (erasable_hold rest).andThen (publish_append _ _ _)

theorem process_delta_append (tagged : Tagged config) (first second : List Char) :
    (e.process_delta config (first ++ second) counter).erased =
      ((e.process_delta config first counter).andThen (Extraction.process_delta config second)).erased := by
  rw [process_delta_absorb,process_delta_absorb,← List.append_assoc]
  exact absorb_append tagged second _ { e with buffer := e.buffer ++ first } counter (Nat.lt_succ_self _)

end

end Ferrin.Middleware
