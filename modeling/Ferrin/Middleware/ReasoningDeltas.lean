import Ferrin.Middleware.ReasoningApply
import Ferrin.Middleware.ReasoningStream

/-!
What is told of one text part in deltas. Unless a delta ends within a tag whose
begin is not held back, the part is told by the sections of its whole text
(`streamed_told`).
-/
namespace Ferrin.Middleware
open List Delimiter Nat Emission
open Ferrin.Delimiter (find)
open Ferrin.Separated (filled)

def residual (config : ExtractReasoning) : Nat → Bool → List Char → Bool × List Char
  | 0,mode,text => (mode,text)
  | turns + 1,mode,text =>
    match find (config.tag mode) text with
    | none => (mode,text)
    | some i => residual config turns (!mode) (text.drop (i + (config.tag mode).length))

def settled (config : ExtractReasoning) (mode : Bool) (text : List Char) : Bool × List Char :=
  residual config (text.length + 1) mode text

/-- What is left of a text after its last tag is held back from the next tag on, wherever that tag ends in what follows. -/
def Holds (config : ExtractReasoning) (mode : Bool) (read later : List Char) : Prop :=
  let (mode,rest) := settled config mode read
  ∀ i, find (config.tag mode) (rest ++ later) = some i →
    (potential_start_index rest (config.tag mode)).getD rest.length ≤ i

/-- At the end of every delta, the tag that goes on is held back from its begin. -/
def Kept (config : ExtractReasoning) (deltas : List (List Char)) : Prop :=
  ∀ read later, read ++ later = deltas → Holds config config.start_with_reasoning read.flatten later.flatten

def Extraction.process_deltas (config : ExtractReasoning) : List (List Char) → Extraction → UInt32 → Emission
  | [],e,counter => ⟨e,counter,[]⟩
  | delta :: rest,e,counter => (e.process_delta config delta counter).andThen (Extraction.process_deltas config rest)

section
variable {config : ExtractReasoning} {e : Extraction} {counter : UInt32} {mode : Bool} {text later : List Char}

/-! ### After the last tag -/

theorem residual_turns (tags : Tags config) (turns : Nat) : ∀ (more : Nat) (mode : Bool) (text : List Char),
    text.length < turns → text.length < more → residual config turns mode text = residual config more mode text := by
  induction turns with
  | zero => exact fun _ _ _ impossible => absurd impossible (Nat.not_lt_zero _)
  | succ _ ih =>
    intro more mode text bound enough
    obtain ⟨more,rfl⟩ := exists_eq_succ_of_ne_zero (Nat.ne_of_gt (zero_lt_of_lt enough))
    rw [residual,residual]
    cases found : find (config.tag mode) text with
    | none => rfl
    | some i =>
      have fits := (find_some found).2
      have some_tag := List.length_pos_iff.mpr (tags.tag_ne mode)
      have shorter : (text.drop (i + (config.tag mode).length)).length < text.length := by
        rw [length_drop]
        omega
      exact ih more _ _ (by omega) (by omega)

theorem settled_none (absent : find (config.tag mode) text = none) : settled config mode text = (mode,text) := by
  rw [settled,residual,absent]

section
variable (tags : Tags config)
include tags

theorem settled_some {i : Nat} (found : find (config.tag mode) text = some i) :
    settled config mode text = settled config (!mode) (text.drop (i + (config.tag mode).length)) := by
  have fits := (find_some found).2
  have some_tag := List.length_pos_iff.mpr (tags.tag_ne mode)
  rw [settled,residual,found]
  refine residual_turns tags _ _ _ _ ?_ (lt_succ_self _)
  rw [length_drop]
  omega

theorem settle_induction {P : Bool → List Char → Prop}
    (absent : ∀ mode text, find (config.tag mode) text = none → P mode text)
    (found : ∀ mode text i, find (config.tag mode) text = some i →
      P (!mode) (text.drop (i + (config.tag mode).length)) → P mode text) (mode : Bool) (text : List Char) : P mode text := by
  induction bound : text.length using Nat.strongRecOn generalizing mode text with
  | ind n ih =>
    cases place : find (config.tag mode) text with
    | none => exact absent mode text place
    | some i =>
      have fits := (find_some place).2
      have some_tag := List.length_pos_iff.mpr (tags.tag_ne mode)
      refine found mode text i place (ih _ ?_ _ _ rfl)
      rw [length_drop]
      omega

theorem settled_absent : find (config.tag (settled config mode text).1) (settled config mode text).2 = none := by
  induction mode,text using settle_induction tags with
  | absent _ _ absent => rwa [settled_none absent]
  | found _ _ _ found => rwa [settled_some tags found]

theorem settled_append (more : List Char) : settled config mode (text ++ more) =
    settled config (settled config mode text).1 ((settled config mode text).2 ++ more) := by
  induction mode,text using settle_induction tags with
  | absent _ _ absent => rw [settled_none absent]
  | found _ _ _ found ih =>
    have fits := (find_some found).2
    rw [settled_some tags found,settled_some tags (find_append found more),
      drop_append_of_le_length fits,ih]

theorem holds_iff : Holds config mode text later ↔
    ∀ i, find (config.tag (settled config mode text).1) ((settled config mode text).2 ++ later) = some i →
      Delimiter.free (config.tag (settled config mode text).1) (settled config mode text).2 ≤ i := by
  have place : (potential_start_index (settled config mode text).2 (config.tag (settled config mode text).1)).getD
      (settled config mode text).2.length =
      Delimiter.free (config.tag (settled config mode text).1) (settled config mode text).2 := by
    rw [potential_start_index,if_neg (tags.tag_ne _),settled_absent tags,Option.none_or,Delimiter.free]
  unfold Holds
  dsimp only
  rw [place]

end

theorem Tagged.holds (tagged : Tagged config) (mode : Bool) (text later : List Char) : Holds config mode text later := by
  have headed : Delimiter.Headed (config.tag (settled config mode text).1) := by
    unfold ExtractReasoning.tag
    split_ifs
    · exact tagged.closing
    · exact tagged.opening
  exact (holds_iff tagged.tags).mpr fun i found => headed.free_le (settled_absent tagged.tags) found

theorem Tagged.kept (tagged : Tagged config) (deltas : List (List Char)) : Kept config deltas :=
  fun _ _ _ => tagged.holds _ _ _

theorem absorb_settled (tags : Tags config) (n : Nat) : ∀ (e : Extraction) (counter : UInt32), e.buffer.length < n →
    (e.absorb config counter).extraction.is_reasoning = (settled config e.is_reasoning e.buffer).1 ∧
      (e.absorb config counter).extraction.buffer = (settled config e.is_reasoning e.buffer).2.drop
        (Delimiter.free (config.tag (settled config e.is_reasoning e.buffer).1)
          (settled config e.is_reasoning e.buffer).2) := by
  induction n with
  | zero => exact fun e counter impossible => absurd impossible (Nat.not_lt_zero _)
  | succ n ih =>
    intro e counter bound
    have tag : e.next_tag config = config.tag e.is_reasoning := rfl
    rw [absorb_turn tags,Extraction.turn,tag]
    cases found : find (config.tag e.is_reasoning) e.buffer with
    | none =>
      rw [scan_free found,settled_none found]
      exact ⟨(publish_frame _ _).2,rfl⟩
    | some i =>
      have scanned : scan (config.tag e.is_reasoning) e.buffer =
          .found (e.buffer.take i) (e.buffer.drop (i + (config.tag e.is_reasoning).length)) := by
        rw [scan,found]
      have shorter := scan_found_length scanned (tags.tag_ne _)
      rw [scanned,settled_some tags found]
      dsimp only
      rw [andThen,Extraction.cross,andThen]
      have mode := @publish_frame e counter config.separator (e.buffer.take i)
      generalize e.publish config.separator (e.buffer.take i) counter = published at mode
      generalize e.buffer.drop (i + (config.tag e.is_reasoning).length) = after at shorter
      have closed := @close_reasoning_frame { published.extraction with buffer := after } published.counter
      generalize ({ published.extraction with buffer := after }).close_reasoning published.counter = crossed at closed
      have next := ih crossed.extraction.switch crossed.counter (by
        show crossed.extraction.buffer.length < n
        rw [closed.1]
        dsimp only
        omega)
      have switched : crossed.extraction.switch.is_reasoning = !e.is_reasoning := by
        show (!crossed.extraction.is_reasoning) = !e.is_reasoning
        rw [closed.2,mode.2]
      have buffer : crossed.extraction.switch.buffer = after := closed.1
      rwa [switched,buffer] at next

theorem erasable_start_switch {f : Extraction → UInt32 → Emission} (erasable : Erasable f) :
    Erasable fun e counter => f e.switch counter := by
  intro e e' counter counter' same
  refine erasable _ _ _ _ ?_
  obtain ⟨id,rfl,_⟩ := anonymous_eq same
  have ids : e.reasoning_id.map (fun _ => "") = id.map fun _ => "" := congrArg Extraction.reasoning_id same
  simp only [Extraction.anonymous,Extraction.switch,ids]

theorem erasable_tell_section (separator text : List Char) : Erasable (Extraction.tell_section separator text) :=
  (erasable_publish separator text).comp erasable_close_reasoning

theorem erasable_tell (separator : List Char) (sections : List Section) : Erasable (Extraction.tell separator sections) := by
  induction sections with
  | nil => exact erasable_start_text
  | cons s rest ih =>
    cases rest with
    | nil => exact (erasable_tell_section separator s.text).comp erasable_start_text
    | cons => exact (erasable_tell_section separator s.text).comp (erasable_start_switch ih)

theorem publish_tell (separator before text : List Char) (rest : List Section) :
    (e.tell separator (⟨mode,before ++ text⟩ :: rest) counter).erased =
      ((e.publish separator before counter).andThen (Extraction.tell separator (⟨mode,text⟩ :: rest))).erased := by
  have pieces := @publish_append e counter separator before text
  cases rest with
  | nil =>
    have closes : Erasable fun e counter => (e.close_reasoning counter).andThen Extraction.start_text :=
      erasable_close_reasoning.comp erasable_start_text
    have told := closes.andThen pieces
    simp only [andThen_assoc] at told
    simpa only [Extraction.tell,Extraction.tell_section,andThen_assoc] using told
  | cons second others =>
    have goes_on : Erasable fun e counter => (e.close_reasoning counter).andThen fun e counter =>
        e.switch.tell separator (second :: others) counter :=
      erasable_close_reasoning.comp (erasable_start_switch (erasable_tell separator (second :: others)))
    have told := goes_on.andThen pieces
    simp only [andThen_assoc] at told
    simpa only [Extraction.tell,Extraction.tell_section,andThen_assoc] using told

theorem cut_front (tags : Tags config) {front : List Char} (turns more : Nat) (bound : (front ++ text).length < turns)
    (enough : text.length < more) (free : ∀ i, find (config.tag mode) (front ++ text) = some i → front.length ≤ i) :
    ∃ first rest, cut config more mode text = ⟨mode,first⟩ :: rest ∧
      cut config turns mode (front ++ text) = ⟨mode,front ++ first⟩ :: rest := by
  obtain ⟨turns,rfl⟩ := exists_eq_succ_of_ne_zero (Nat.ne_of_gt (zero_lt_of_lt bound))
  obtain ⟨more,rfl⟩ := exists_eq_succ_of_ne_zero (Nat.ne_of_gt (zero_lt_of_lt enough))
  rw [cut,cut]
  cases place : find (config.tag mode) (front ++ text) with
  | none =>
    rw [find_none_append place]
    exact ⟨text,[],rfl,rfl⟩
  | some i =>
    have after := free i place
    have fits := (find_some place).2
    have some_tag := List.length_pos_iff.mpr (tags.tag_ne mode)
    rw [find_of_append place after]
    dsimp only
    have taken : (front ++ text).take i = front ++ text.take (i - front.length) := by
      rw [take_append,take_of_length_le after]
    have dropped : (front ++ text).drop (i + (config.tag mode).length) =
        text.drop (i - front.length + (config.tag mode).length) := by
      rw [drop_append,drop_eq_nil_of_le (by omega),nil_append]
      congr 1
      omega
    rw [taken,dropped]
    rw [length_append] at bound fits
    have shorter : (text.drop (i - front.length + (config.tag mode).length)).length < text.length := by
      rw [length_drop]
      omega
    refine ⟨_,_,rfl,?_⟩
    rw [cut_turns tags turns more _ _ (by omega) (by omega)]

theorem holds_some (tags : Tags config) {i : Nat} (found : find (config.tag mode) text = some i) :
    Holds config mode text later ↔ Holds config (!mode) (text.drop (i + (config.tag mode).length)) later := by
  unfold Holds
  rw [settled_some tags found]

theorem absorb_holds (tags : Tags config) (more : List Char) (n : Nat) : ∀ (e : Extraction) (counter : UInt32),
    e.buffer.length < n → Holds config e.is_reasoning e.buffer more →
    ((({ e with buffer := e.buffer ++ more }).absorb config counter).andThen (Extraction.finish config.separator)).erased =
      ((e.absorb config counter).andThen fun e counter =>
        (e.process_delta config more counter).andThen (Extraction.finish config.separator)).erased := by
  induction n with
  | zero => exact fun e counter impossible => absurd impossible (Nat.not_lt_zero _)
  | succ n ih =>
    intro e counter bound holds
    have tag : ∀ buffer, Extraction.next_tag config { e with buffer } = config.tag e.is_reasoning := fun _ => rfl
    cases found : find (config.tag e.is_reasoning) e.buffer with
    | some i =>
      have scanned : scan (config.tag e.is_reasoning) e.buffer =
          .found (e.buffer.take i) (e.buffer.drop (i + (config.tag e.is_reasoning).length)) := by
        rw [scan,found]
      have shorter := scan_found_length scanned (tags.tag_ne _)
      rw [holds_some tags found] at holds
      rw [absorb_turn tags,absorb_turn tags,Extraction.turn,Extraction.turn,tag,show e.next_tag config = config.tag e.is_reasoning
        from rfl,scan_append_found scanned more,scanned]
      dsimp only
      rw [publish_andThen_buffer fun _ _ => rfl,andThen_assoc,andThen_assoc]
      refine andThen_erased ?_
      have mode := (@publish_frame e counter config.separator (e.buffer.take i)).2
      generalize (e.publish config.separator (e.buffer.take i) counter).extraction = published at mode
      generalize (e.publish config.separator (e.buffer.take i) counter).counter = counter
      generalize e.buffer.drop (i + (config.tag e.is_reasoning).length) = after at shorter holds
      rw [Extraction.cross,Extraction.cross,andThen_assoc,andThen_assoc]
      have appended : ({ published with buffer := after ++ more }).close_reasoning counter =
          ⟨{ (({ published with buffer := after }).close_reasoning counter).extraction with buffer := after ++ more },
            (({ published with buffer := after }).close_reasoning counter).counter,
            (({ published with buffer := after }).close_reasoning counter).out⟩ :=
        @close_reasoning_buffer { published with buffer := after } counter (after ++ more)
      rw [appended]
      have closed := @close_reasoning_frame { published with buffer := after } counter
      generalize ({ published with buffer := after }).close_reasoning counter = crossed at closed
      have switched : crossed.extraction.switch.is_reasoning = !e.is_reasoning := by
        show (!crossed.extraction.is_reasoning) = !e.is_reasoning
        rw [closed.2,mode]
      have buffer : crossed.extraction.switch.buffer = after := closed.1
      have next := ih crossed.extraction.switch crossed.counter (by rw [buffer]; omega) (by rwa [switched,buffer])
      have same : { crossed.extraction.switch with buffer := crossed.extraction.switch.buffer ++ more } =
          Extraction.switch { crossed.extraction with buffer := after ++ more } := by
        rw [buffer]
        rfl
      rw [same] at next
      obtain ⟨anonymous,out⟩ := Prod.mk.inj next
      refine Prod.ext anonymous ?_
      simp only [erased,andThen,flatMap_append] at out ⊢
      rw [out]
    | none =>
      have free := (holds_iff tags).mp holds
      rw [settled_none found] at free
      have whole := absorb_finish tags ((e.buffer ++ more).length + 1) { e with buffer := e.buffer ++ more } counter
        (lt_succ_self _)
      rw [whole,absorb_turn tags,Extraction.turn,show e.next_tag config = config.tag e.is_reasoning from rfl,
        scan_free found]
      dsimp only at free ⊢
      have split := take_append_drop (Delimiter.free (config.tag e.is_reasoning) e.buffer) e.buffer
      have taken := length_take_of_le (@free_le _ _ (config.tag e.is_reasoning) e.buffer)
      generalize Delimiter.free (config.tag e.is_reasoning) e.buffer = place at free split taken ⊢
      generalize e.buffer.take place = before at split taken ⊢
      generalize e.buffer.drop place = rest at split ⊢
      rw [← split,append_assoc] at free ⊢
      obtain ⟨first,others,cut_rest,cut_whole⟩ := cut_front tags ((before ++ (rest ++ more)).length + 1)
        ((rest ++ more).length + 1) (lt_succ_self _) (lt_succ_self _) (by rwa [taken])
      rw [cut_whole,keepsBuffer_tell,andThen_assoc,andThen_assoc]
      have held (buffer : List Char) : (fun (e : Extraction) counter => (e.hold buffer counter).andThen (Extraction.hold [])) =
          Extraction.hold [] := by
        funext e counter
        exact hold_andThen _ _
      rw [held]
      refine ((erasable_hold []).andThen (publish_tell config.separator before first others)).trans ?_
      rw [andThen_assoc]
      refine andThen_erased ?_
      have mode := (@publish_frame e counter config.separator before).2
      generalize (e.publish config.separator before counter).extraction = published at mode
      generalize (e.publish config.separator before counter).counter = counter
      have finished := absorb_finish tags ((rest ++ more).length + 1) { published with buffer := rest ++ more } counter
        (lt_succ_self _)
      have cut_same : cut config ((rest ++ more).length + 1) published.is_reasoning (rest ++ more) =
          ⟨e.is_reasoning,first⟩ :: others := by
        rw [mode]
        exact cut_rest
      dsimp only at finished
      rw [cut_same,keepsBuffer_tell,andThen_assoc,held] at finished
      rw [hold_andThen,process_delta_absorb]
      exact finished.symm

/-- The text read so far, up to what an extraction holds back of it. -/
def Reads (config : ExtractReasoning) (read later : List Char) (e : Extraction) : Prop :=
  ∃ front, settled config config.start_with_reasoning read = (e.is_reasoning,front ++ e.buffer) ∧
    ∀ i, find (config.tag e.is_reasoning) (front ++ e.buffer ++ later) = some i → front.length ≤ i

theorem settled_front (tags : Tags config) {front : List Char}
    (sent : ∀ i, find (config.tag mode) (front ++ text ++ later) = some i → front.length ≤ i) :
    ∃ sent_on, settled config mode (front ++ text) = ((settled config mode text).1,sent_on ++ (settled config mode text).2) ∧
      ∀ i, find (config.tag (settled config mode text).1) (sent_on ++ (settled config mode text).2 ++ later) = some i →
        sent_on.length ≤ i := by
  cases found : find (config.tag mode) (front ++ text) with
  | none =>
    rw [settled_none found,settled_none (find_none_append found)]
    exact ⟨front,rfl,sent⟩
  | some i =>
    have after := sent i (find_append found later)
    have place := find_of_append found after
    rw [settled_some tags found,settled_some tags place]
    have dropped : (front ++ text).drop (i + (config.tag mode).length) =
        text.drop (i - front.length + (config.tag mode).length) := by
      rw [drop_append,drop_eq_nil_of_le (by omega),nil_append]
      congr 1
      omega
    rw [dropped]
    exact ⟨[],rfl,fun _ _ => Nat.zero_le _⟩

theorem Reads.delta (tags : Tags config) {read delta : List Char} (reads : Reads config read (delta ++ later) e)
    (holds : Holds config config.start_with_reasoning (read ++ delta) later) :
    Holds config e.is_reasoning (e.buffer ++ delta) later ∧
      Reads config (read ++ delta) later (e.process_delta config delta counter).extraction := by
  obtain ⟨front,same,sent⟩ := reads
  obtain ⟨sent_on,left,free⟩ := @settled_front config e.is_reasoning (e.buffer ++ delta) later tags front
    (by simpa only [append_assoc] using sent)
  have whole : settled config config.start_with_reasoning (read ++ delta) =
      ((settled config e.is_reasoning (e.buffer ++ delta)).1,
        sent_on ++ (settled config e.is_reasoning (e.buffer ++ delta)).2) := by
    rw [settled_append tags,same,← left,append_assoc]
  have absent := @settled_absent config e.is_reasoning (e.buffer ++ delta) tags
  have before := (holds_iff tags).mp holds
  rw [whole] at before
  have after := @absorb_settled config tags _ { e with buffer := e.buffer ++ delta } counter (lt_succ_self _)
  dsimp only at before after
  have near : ∀ j, find (config.tag (settled config e.is_reasoning (e.buffer ++ delta)).1)
      ((settled config e.is_reasoning (e.buffer ++ delta)).2 ++ later) = some j →
      Delimiter.free (config.tag (settled config e.is_reasoning (e.buffer ++ delta)).1)
        (settled config e.is_reasoning (e.buffer ++ delta)).2 ≤ j := by
    intro j found
    have place := find_append_left found (by simpa only [append_assoc] using free)
    exact free_of_append absent found (before _ (by rwa [append_assoc]))
  refine ⟨(holds_iff tags).mpr near,?_⟩
  rw [Reads,process_delta_absorb,whole,after.1,after.2]
  generalize settled config e.is_reasoning (e.buffer ++ delta) = s at *
  refine ⟨sent_on ++ s.2.take (Delimiter.free (config.tag s.1) s.2),?_,fun i found => ?_⟩
  · rw [append_assoc,take_append_drop]
  · rw [append_assoc sent_on,take_append_drop] at found
    have le := free i found
    rw [append_assoc] at found
    have reached := near _ (find_of_append found le)
    have taken := length_take_le (Delimiter.free (config.tag s.1) s.2) s.2
    rw [length_append]
    omega

theorem process_deltas_finish (tags : Tags config) (deltas : List (List Char)) : ∀ (read : List Char) (e : Extraction)
    (counter : UInt32), Reads config read deltas.flatten e →
    (∀ first second, first ++ second = deltas →
      Holds config config.start_with_reasoning (read ++ first.flatten) second.flatten) →
    ((e.process_deltas config deltas counter).andThen (Extraction.finish config.separator)).erased =
      ((e.process_delta config deltas.flatten counter).andThen (Extraction.finish config.separator)).erased := by
  induction deltas with
  | nil =>
    intro read e counter reads kept
    obtain ⟨_,same,_⟩ := reads
    have absent := @settled_absent config config.start_with_reasoning read tags
    rw [same] at absent
    have finished := absorb_finish tags (e.buffer.length + 1) e counter (lt_succ_self _)
    have alone : cut config (e.buffer.length + 1) e.is_reasoning e.buffer = [⟨e.is_reasoning,e.buffer⟩] := by
      rw [cut,find_none_append absent]
    rw [alone,← finish_hold,hold_andThen] at finished
    rw [flatten_nil,process_delta_absorb,append_nil]
    refine Eq.trans ?_ finished.symm
    simp [Extraction.process_deltas,andThen]
  | cons delta rest ih =>
    intro read e counter reads kept
    rw [flatten_cons] at reads
    have cut_here := kept [delta] rest rfl
    rw [flatten_singleton] at cut_here
    obtain ⟨holds,next⟩ := @Reads.delta config e counter rest.flatten tags read delta reads cut_here
    have later := ih (read ++ delta) _ (e.process_delta config delta counter).counter next fun first second same => by
      have later := kept (delta :: first) second (by rw [← same,cons_append])
      rwa [flatten_cons,← append_assoc] at later
    have searched := absorb_holds tags rest.flatten _ { e with buffer := e.buffer ++ delta } counter (lt_succ_self _)
      holds
    dsimp only at searched
    rw [append_assoc] at searched
    rw [Extraction.process_deltas,andThen_assoc,flatten_cons]
    exact (andThen_erased later).trans searched.symm

end

end Ferrin.Middleware
