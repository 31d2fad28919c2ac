import Ferrin.Middleware.ReasoningStream

/-!
The lifecycle of the parts that an extraction emits: what one extraction opens
and closes next to the others (`Advances`), and the ids it takes from the counter.
-/
namespace Ferrin.Middleware
open List Emission Brackets
open Ferrin.Brackets (run run_append)
open Ferrin.Stream (PartKey mark marks)

def reasoningId : StreamPart → Option PartId
  | .ReasoningStart id _ => some id
  | _ => none

def textStart : StreamPart → Option PartId
  | .TextStart id _ => some id
  | _ => none

def nthName (n : Nat) : PartId := reasoningName (.ofNat n)

def Named (n : Nat) (id : PartId) : Prop := ∃ i < n, id = nthName i

theorem reasoningName_injective : Function.Injective reasoningName := by
  intro m n same
  have digits : Nat.toDigits 10 m.toNat = Nat.toDigits 10 n.toNat := by
    have texts := congrArg String.toList same
    simpa [reasoningName] using texts
  refine UInt32.toNat_inj.mp ?_
  rw [← @Nat.ofDigitChars_ten_toDigits m.toNat,digits,Nat.ofDigitChars_ten_toDigits]

theorem nthName_inj {m n : Nat} (first : m < 2 ^ 32) (second : n < 2 ^ 32) (same : nthName m = nthName n) : m = n := by
  have counters := congrArg UInt32.toNat (reasoningName_injective same)
  rwa [UInt32.toNat_ofNat_of_lt' first,UInt32.toNat_ofNat_of_lt' second] at counters

theorem not_named {n : Nat} (bound : n < 2 ^ 32) : ¬ Named n (nthName n) := by
  rintro ⟨i,less,same⟩
  exact Nat.ne_of_lt less (nthName_inj (by omega) bound same.symm)

theorem Named.mono {m n : Nat} {id : PartId} (named : Named m id) (le : m ≤ n) : Named n id := by
  obtain ⟨i,_,rfl⟩ := named
  exact ⟨i,by omega,rfl⟩

theorem ofNat_succ (n : Nat) : UInt32.ofNat n + 1 = UInt32.ofNat (n + 1) := by
  rw [UInt32.ofNat_add]
  rfl

/-! ### One extraction -/

def Extraction.keys (e : Extraction) : Finset PartKey :=
  (if e.text_started then {.text e.text_id} else ∅) ∪
    match e.reasoning_id with
    | some id => {.reasoning id}
    | none => ∅

def Extraction.pending (e : Extraction) : List PartId := if e.text_started then [] else [e.text_id]

structure Extraction.Sound (e : Extraction) : Prop where
  starts : (∃ metadata, e.delayed_text_start = some (.TextStart e.text_id metadata) ∧ e.text_started = false) ∨
    (e.delayed_text_start = none ∧ e.text_started = true)
  closed : e.is_reasoning = false → e.reasoning_id = none

structure Apart (n : Nat) (others : Finset PartKey) (e : Extraction) : Prop where
  text : .text e.text_id ∉ others
  reasoning : ∀ id, e.reasoning_id = some id → .reasoning id ∉ others
  named : ∀ id, .reasoning id ∈ others ∨ e.reasoning_id = some id → Named n id

structure Advances (n : Nat) (e : Extraction) (m : Emission) (n' : Nat) : Prop where
  later : n ≤ n'
  counter : m.counter = .ofNat n'
  names : m.out.filterMap reasoningId = (List.range' n (n' - n)).map nthName
  texts : m.out.filterMap textStart ++ m.extraction.pending = e.pending
  text_id : m.extraction.text_id = e.text_id
  sound : m.extraction.Sound
  bracketed : n' ≤ 2 ^ 32 → ∀ others, Apart n others e →
    run (others ∪ e.keys) (marks m.out) = some (others ∪ m.extraction.keys) ∧ Apart n' others m.extraction

section
variable {config : ExtractReasoning} {e : Extraction} {n n' n'' : Nat} {m : Emission}

theorem advances_idle (sound : e.Sound) : Advances n e ⟨e,.ofNat n,[]⟩ n where
  later := le_rfl
  counter := rfl
  names := by simp
  texts := by simp
  text_id := rfl
  sound := sound
  bracketed _ others apart := ⟨rfl,apart⟩

theorem Advances.trans {f : Extraction → UInt32 → Emission} (first : Advances n e m n')
    (second : Advances n' m.extraction (f m.extraction m.counter) n'') : Advances n e (m.andThen f) n'' where
  later := first.later.trans second.later
  counter := second.counter
  names := by
    have lengths : n'' - n = (n' - n) + (n'' - n') := by
      have := first.later
      have := second.later
      omega
    have reached : n + (n' - n) = n' := by
      have := first.later
      omega
    rw [andThen,filterMap_append,first.names,second.names,lengths,← range'_append_1,
      map_append,reached]
  texts := by
    rw [andThen,filterMap_append,append_assoc,second.texts,first.texts]
  text_id := second.text_id.trans first.text_id
  sound := second.sound
  bracketed bound others apart := by
    obtain ⟨ran,middle⟩ := first.bracketed (second.later.trans bound) others apart
    obtain ⟨ran',last⟩ := second.bracketed bound others middle
    refine ⟨?_,last⟩
    rw [andThen,marks,filterMap_append,run_append]
    exact (congrArg (Option.bind · _) ran).trans ran'

theorem Advances.emit {part : StreamPart} {key : PartKey} (before : Advances n e m n') (marked : mark part = some (.within key))
    (isOpen : key ∈ m.extraction.keys) : Advances n e ⟨m.extraction,m.counter,m.out ++ [part]⟩ n' where
  later := before.later
  counter := before.counter
  names := by
    rw [filterMap_append,before.names]
    cases part <;> cases marked <;> simp [reasoningId]
  texts := by
    rw [← before.texts,filterMap_append]
    cases part <;> cases marked <;> simp [textStart]
  text_id := before.text_id
  sound := before.sound
  bracketed bound others apart := by
    obtain ⟨ran,after⟩ := before.bracketed bound others apart
    refine ⟨?_,after⟩
    rw [marks,filterMap_append,run_append,show m.out.filterMap mark = marks m.out from rfl,ran]
    simp [marked,step,isOpen]

theorem advances_start_text (sound : e.Sound) : Advances n e (e.start_text (.ofNat n)) n ∧
    (e.start_text (.ofNat n)).extraction = { e with delayed_text_start := none,text_started := true } := by
  rcases sound.starts with ⟨metadata,delayed,started⟩ | ⟨delayed,started⟩
  · have stepped : e.start_text (.ofNat n) =
        ⟨{ e with delayed_text_start := none,text_started := true },.ofNat n,[.TextStart e.text_id metadata]⟩ := by
      rw [Extraction.start_text,delayed]
    rw [stepped]
    refine ⟨⟨le_rfl,rfl,by simp [reasoningId],?_,rfl,⟨.inr ⟨rfl,rfl⟩,sound.closed⟩,fun bound others apart => ⟨?_,?_⟩⟩,rfl⟩
    · simp [textStart,Extraction.pending,started]
    · have closed : PartKey.text e.text_id ∉ others ∪ e.keys := by
        have outside := apart.text
        simp only [Finset.mem_union,not_or,Extraction.keys,started]
        cases e.reasoning_id <;> simp [outside]
      simp only [marks,filterMap_cons,mark,filterMap_nil]
      rw [run_opens closed,run_nil]
      congr 1
      ext key
      simp only [Extraction.keys,started,Bool.false_eq_true,if_true,if_false,Finset.mem_insert,Finset.mem_union,Finset.mem_singleton]
      tauto
    · exact ⟨apart.text,apart.reasoning,apart.named⟩
  · have stepped : e.start_text (.ofNat n) = ⟨e,.ofNat n,[]⟩ := by
      rw [Extraction.start_text,delayed]
    rw [stepped]
    refine ⟨advances_idle sound,?_⟩
    rw [← delayed,← started]

theorem advances_start_reasoning (sound : e.Sound) (mode : e.is_reasoning = true) :
    ∃ n' r, (e.start_reasoning (.ofNat n)).1 = r ∧ Advances n e (e.start_reasoning (.ofNat n)).2 n' ∧
      (e.start_reasoning (.ofNat n)).2.extraction = { e with reasoning_id := some r } := by
  cases known : e.reasoning_id with
  | some r =>
    have stepped : e.start_reasoning (.ofNat n) = (r,⟨e,.ofNat n,[]⟩) := by
      rw [Extraction.start_reasoning,known]
    rw [stepped]
    refine ⟨n,r,rfl,advances_idle sound,?_⟩
    rw [← known]
  | none =>
    have stepped : e.start_reasoning (.ofNat n) = (nthName n,⟨{ e with reasoning_id := some (nthName n) },
        .ofNat (n + 1),[.ReasoningStart (nthName n) none]⟩) := by
      rw [Extraction.start_reasoning,known]
      simp only [ofNat_succ]
      rfl
    rw [stepped]
    refine ⟨n + 1,nthName n,rfl,⟨Nat.le_succ n,rfl,?_,?_,rfl,⟨sound.starts,by simp [mode]⟩,fun bound others apart =>
      ⟨?_,?_⟩⟩,rfl⟩
    · simp [reasoningId]
    · simp [textStart,Extraction.pending]
    · have closed : PartKey.reasoning (nthName n) ∉ others ∪ e.keys := by
        have fresh : PartKey.reasoning (nthName n) ∉ others := fun mem =>
          not_named (by omega) (apart.named _ (.inl mem))
        simp only [Finset.mem_union,not_or,Extraction.keys,known]
        split_ifs <;> simp [fresh]
      simp only [marks,filterMap_cons,mark,filterMap_nil]
      rw [run_opens closed,run_nil]
      congr 1
      ext key
      simp only [Extraction.keys,known,Finset.mem_insert,Finset.mem_union,Finset.mem_singleton,Finset.notMem_empty,or_false]
      tauto
    · refine ⟨apart.text,fun id same => ?_,fun id inside => ?_⟩
      · cases same
        exact fun mem => not_named (by omega) (apart.named _ (.inl mem))
      · rcases inside with mem | same
        · exact (apart.named id (.inl mem)).mono (Nat.le_succ n)
        · cases same
          exact ⟨n,Nat.lt_succ_self n,rfl⟩

theorem Advances.flags (before : Advances n e m n') (first_reasoning first_text after : Bool) (buffer : List Char) :
    Advances n e ⟨{ m.extraction with
      is_first_reasoning := first_reasoning
      is_first_text := first_text
      after_switch := after
      buffer },m.counter,m.out⟩ n' where
  later := before.later
  counter := before.counter
  names := before.names
  texts := before.texts
  text_id := before.text_id
  sound := ⟨before.sound.starts,before.sound.closed⟩
  bracketed bound others apart := by
    obtain ⟨ran,after⟩ := before.bracketed bound others apart
    exact ⟨ran,after.text,after.reasoning,after.named⟩

theorem Advances.of_buffer {buffer : List Char} (step : Advances n { e with buffer } m n') : Advances n e m n' where
  later := step.later
  counter := step.counter
  names := step.names
  texts := step.texts
  text_id := step.text_id
  sound := step.sound
  bracketed bound others apart := step.bracketed bound others ⟨apart.text,apart.reasoning,apart.named⟩

theorem advances_publish (sound : e.Sound) (separator text : List Char) :
    ∃ n', Advances n e (e.publish separator text (.ofNat n)) n' := by
  unfold Extraction.publish
  by_cases empty : text = []
  · rw [if_pos empty]
    exact ⟨n,advances_idle sound⟩
  rw [if_neg empty]
  cases mode : e.is_reasoning with
  | true =>
    obtain ⟨n',r,name,begun,extraction⟩ := advances_start_reasoning (n := n) sound mode
    have isOpen : PartKey.reasoning (e.start_reasoning (.ofNat n)).1 ∈ (e.start_reasoning (.ofNat n)).2.extraction.keys := by
      rw [extraction,name]
      simp [Extraction.keys]
    have told := begun.emit (rfl : mark (.ReasoningDelta _
      (String.ofList ((if e.after_switch && !e.is_first_reasoning then separator else []) ++ text)) none) = _) isOpen
    exact ⟨n',told.flags _ _ _ _⟩
  | false =>
    obtain ⟨begun,extraction⟩ := advances_start_text (n := n) sound
    have isOpen : PartKey.text e.text_id ∈ (e.start_text (.ofNat n)).extraction.keys := by
      rw [extraction]
      simp [Extraction.keys]
    have told := begun.emit (rfl : mark (.TextDelta _
      (String.ofList ((if e.after_switch && !e.is_first_text then separator else []) ++ text)) none) = _) isOpen
    exact ⟨n,told.flags _ _ _ _⟩

theorem advances_end_reasoning (sound : e.Sound) (mode : e.is_reasoning = true) :
    ∃ n', Advances n e (e.end_reasoning (.ofNat n)) n' ∧
      (e.end_reasoning (.ofNat n)).extraction = { e with reasoning_id := none } := by
  obtain ⟨n',r,name,begun,extraction⟩ := advances_start_reasoning (n := n) sound mode
  unfold Extraction.end_reasoning
  generalize e.start_reasoning (.ofNat n) = started at name begun extraction
  obtain ⟨id,m⟩ := started
  dsimp only at name begun extraction ⊢
  subst name
  refine ⟨n',⟨begun.later,begun.counter,?_,?_,begun.text_id,⟨begun.sound.starts,fun _ => rfl⟩,fun bound others apart => ?_⟩,?_⟩
  · rw [filterMap_append,begun.names]
    simp [reasoningId]
  · rw [← begun.texts,filterMap_append]
    simp [textStart,Extraction.pending]
  · obtain ⟨ran,after⟩ := begun.bracketed bound others apart
    have isOpen : PartKey.reasoning id ∈ others ∪ m.extraction.keys := by
      rw [extraction]
      simp [Extraction.keys]
    have foreign : PartKey.reasoning id ∉ others := after.reasoning id (by rw [extraction])
    refine ⟨?_,after.text,fun id' same => (Option.some_ne_none id' same.symm).elim,fun id' mem => ?_⟩
    · rw [marks,filterMap_append,run_append,show m.out.filterMap mark = marks m.out from rfl,ran]
      simp only [Option.bind_some,filterMap_cons,mark,filterMap_nil]
      rw [run_closes isOpen,run_nil]
      congr 1
      ext key
      simp only [Finset.mem_erase,Finset.mem_union,extraction,Extraction.keys,Finset.mem_singleton,Finset.notMem_empty,or_false]
      by_cases same : key = .reasoning id
      · subst same
        split_ifs <;> simp [foreign]
      · simp [same]
    · rcases mem with inside | same
      · exact after.named id' (.inl inside)
      · cases same
  · rw [extraction]

theorem advances_close_reasoning (sound : e.Sound) : ∃ n', Advances n e (e.close_reasoning (.ofNat n)) n' ∧
    (e.close_reasoning (.ofNat n)).extraction = { e with reasoning_id := none } := by
  unfold Extraction.close_reasoning
  split_ifs with mode
  · exact advances_end_reasoning sound mode
  · refine ⟨n,advances_idle sound,?_⟩
    rw [← sound.closed (by simpa using mode)]

theorem Advances.switch (before : Advances n e m n') (closed : m.extraction.reasoning_id = none) :
    Advances n e ⟨m.extraction.switch,m.counter,m.out⟩ n' where
  later := before.later
  counter := before.counter
  names := before.names
  texts := before.texts
  text_id := before.text_id
  sound := ⟨before.sound.starts,fun _ => closed⟩
  bracketed bound others apart := by
    obtain ⟨ran,after⟩ := before.bracketed bound others apart
    exact ⟨ran,after.text,after.reasoning,after.named⟩

theorem advances_scan (tagged : Tagged config) (turns : Nat) : ∀ (e : Extraction) (n : Nat), e.Sound →
    ∃ n', Advances n e (e.scan config turns (.ofNat n)) n' := by
  induction turns with
  | zero => exact fun e n sound => ⟨n,advances_idle sound⟩
  | succ turns ih =>
    intro e n sound
    rw [scan_turn tagged.tags,Extraction.turn]
    cases Delimiter.scan (e.next_tag config) e.buffer with
    | held before rest =>
      obtain ⟨n',told⟩ := advances_publish (n := n) sound config.separator before
      refine ⟨n',?_⟩
      have held := told.flags (e.publish config.separator before (.ofNat n)).extraction.is_first_reasoning
        (e.publish config.separator before (.ofNat n)).extraction.is_first_text
        (e.publish config.separator before (.ofNat n)).extraction.after_switch rest
      simpa [andThen,Extraction.hold] using held
    | found before after =>
      obtain ⟨n₁,told⟩ := advances_publish (n := n) sound config.separator before
      obtain ⟨n₂,closed,extraction⟩ := advances_close_reasoning (n := n₁)
        (e := { (e.publish config.separator before (.ofNat n)).extraction with buffer := after })
        ⟨told.sound.starts,told.sound.closed⟩
      have switched := (closed.switch (by rw [extraction])).of_buffer
      rw [← told.counter] at switched
      have crossed := told.trans (f := fun e counter =>
        ⟨(({ e with buffer := after }).close_reasoning counter).extraction.switch,
          (({ e with buffer := after }).close_reasoning counter).counter,
          (({ e with buffer := after }).close_reasoning counter).out⟩) switched
      obtain ⟨n₃,rest⟩ := ih _ n₂ crossed.sound
      rw [← crossed.counter] at rest
      have whole := crossed.trans (f := fun e counter => e.scan config turns counter) rest
      refine ⟨n₃,?_⟩
      simpa [andThen,Extraction.cross] using whole

theorem advances_process_delta (tagged : Tagged config) (sound : e.Sound) (delta : List Char) :
    ∃ n', Advances n e (e.process_delta config delta (.ofNat n)) n' := by
  obtain ⟨n',scanned⟩ := advances_scan tagged ((e.buffer ++ delta).length + 1) { e with buffer := e.buffer ++ delta } n
    ⟨sound.starts,sound.closed⟩
  exact ⟨n',scanned.of_buffer⟩

theorem advances_finish (sound : e.Sound) (separator : List Char) :
    ∃ n', Advances n e (e.finish separator (.ofNat n)) n' ∧ (e.finish separator (.ofNat n)).extraction.text_started = true ∧
      (e.finish separator (.ofNat n)).extraction.keys = {.text e.text_id} := by
  obtain ⟨n₁,told⟩ := advances_publish (n := n) (e := { e with buffer := [] }) ⟨sound.starts,sound.closed⟩ separator e.buffer
  obtain ⟨n₂,closed,closed_eq⟩ := advances_close_reasoning (n := n₁) told.sound
  rw [← told.counter] at closed closed_eq
  have ended := told.trans closed
  obtain ⟨started,started_eq⟩ := advances_start_text (n := n₂) ended.sound
  rw [← ended.counter] at started started_eq
  have whole := (ended.trans started).of_buffer
  refine ⟨n₂,whole,?_,?_⟩
  · show (andThen _ _).extraction.text_started = true
    rw [andThen,started_eq]
  · have keys : (e.finish separator (.ofNat n)).extraction = _ := started_eq
    rw [keys]
    have same : (andThen ({ e with buffer := [] }.publish separator e.buffer (.ofNat n))
        Extraction.close_reasoning).extraction.reasoning_id = none := by
      rw [andThen,closed_eq]
    simp [Extraction.keys,same,ended.text_id]

end

end Ferrin.Middleware
