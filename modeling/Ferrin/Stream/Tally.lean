import Ferrin.Stream.Driver

/-!
Reading the output of a machine part by part. The tally of an output tells what
is open and which ids are taken, as long as the output keeps the contract; an
output whose tally ends well is driven to a stream that obeys it.
-/
namespace Ferrin.Stream
open Ferrin.Brackets List

/-- How far an output has come. After an error nothing counts. -/
inductive Tally where
  | running (opens : Finset PartKey) (ids : List PartId) (tools : List ToolCallId)
  | finished
  | failed
  | broken

namespace Tally

def next : Tally → StreamPart → Tally
  | .running _ _ _,.Error _ => .failed
  | .running opens _ _,.Finish .. => if opens = ∅ then .finished else .broken
  | .running _ _ _,.StreamStart _ => .broken
  | .running opens ids tools,part =>
    if (∀ id ∈ (partId part).toList, id ∉ ids) ∧ ∀ id ∈ (toolInputId part).toList, id ∉ tools then
      match stepPart opens part with
      | some opens => .running opens (ids ++ (partId part).toList) (tools ++ (toolInputId part).toList)
      | none => .broken
    else .broken
  | .finished,_ => .broken
  | .failed,_ => .failed
  | .broken,_ => .broken

def after (t : Tally) (parts : List StreamPart) : Tally := parts.foldl next t

/-- The output kept the contract to its end. -/
def Ended (t : Tally) : Prop := t = .finished ∨ t = .failed

@[simp] theorem after_nil (t : Tally) : t.after [] = t := rfl

@[simp] theorem after_cons (t : Tally) (part : StreamPart) (rest : List StreamPart) :
    t.after (part :: rest) = (t.next part).after rest := rfl

theorem after_append (t : Tally) (before after_ : List StreamPart) :
    t.after (before ++ after_) = (t.after before).after after_ := List.foldl_append

variable (parts : List StreamPart)

@[simp] theorem after_failed : failed.after parts = .failed := by
  induction parts with
  | nil => rfl
  | cons _ _ ih => exact ih

theorem after_broken : broken.after parts = .broken := by
  induction parts with
  | nil => rfl
  | cons _ _ ih => exact ih

theorem after_finished (part : StreamPart) (rest : List StreamPart) : finished.after (part :: rest) = .broken :=
  after_broken rest

section
variable {opens : Finset PartKey} {ids : List PartId} {tools : List ToolCallId} {part : StreamPart}

theorem next_inner (inner : Inner part) : (running opens ids tools).next part =
    if (∀ id ∈ (partId part).toList, id ∉ ids) ∧ ∀ id ∈ (toolInputId part).toList, id ∉ tools then
      match stepPart opens part with
      | some opens => .running opens (ids ++ (partId part).toList) (tools ++ (toolInputId part).toList)
      | none => .broken
    else .broken := by
  cases part with
  | Error => cases inner.1
  | Finish => cases inner.1
  | StreamStart => cases inner.2
  | _ => rfl

@[simp] theorem next_finish (reason : FinishReason) (usage : Usage) (metadata : Option ProviderMetadata) :
    (running opens ids tools).next (.Finish reason usage metadata) = if opens = ∅ then .finished else .broken := rfl

@[simp] theorem next_error (error : StreamError) : (running opens ids tools).next (.Error error) = .failed := rfl

theorem next_quiet (inner : Inner part) (unmarked : mark part = none) :
    (running opens ids tools).next part = .running opens ids tools := by
  have noId : partId part = none := by cases part <;> first | rfl | cases unmarked
  have noTool : toolInputId part = none := by cases part <;> first | rfl | cases unmarked
  rw [next_inner inner,stepPart,unmarked,noId,noTool]
  simp

theorem next_opens {k : PartKey} (marked : mark part = some (.opens k)) (closed : k ∉ opens)
    (freshId : ∀ id, partId part = some id → id ∉ ids) (freshTool : ∀ id, toolInputId part = some id → id ∉ tools) :
    (running opens ids tools).next part =
      .running (insert k opens) (ids ++ (partId part).toList) (tools ++ (toolInputId part).toList) := by
  have stepped : stepPart opens part = some (insert k opens) := by
    rw [stepPart,marked]
    exact if_neg closed
  rw [next_inner (opens_names marked).1,if_pos,stepped]
  constructor
  · intro id mem
    exact freshId id (Option.mem_toList.mp mem)
  · intro id mem
    exact freshTool id (Option.mem_toList.mp mem)

theorem next_within {k : PartKey} (marked : mark part = some (.within k)) (isOpen : k ∈ opens) :
    (running opens ids tools).next part = .running opens ids tools := by
  cases part <;> cases marked <;> rw [next_inner ⟨rfl,rfl⟩] <;> simp [stepPart,mark,step,isOpen,partId,toolInputId]

theorem next_closes {k : PartKey} (marked : mark part = some (.closes k)) (isOpen : k ∈ opens) :
    (running opens ids tools).next part = .running (opens.erase k) ids tools := by
  cases part <;> cases marked <;> rw [next_inner ⟨rfl,rfl⟩] <;> simp [stepPart,mark,step,isOpen,partId,toolInputId]

theorem next_ended {rest : List StreamPart} (inner : Inner part)
    (ended : (((running opens ids tools).next part).after rest).Ended) :
    (∀ id, partId part = some id → id ∉ ids) ∧ (∀ id, toolInputId part = some id → id ∉ tools) ∧
      ∃ later, stepPart opens part = some later ∧
        ((running later (ids ++ (partId part).toList) (tools ++ (toolInputId part).toList)).after rest).Ended := by
  rw [next_inner inner] at ended
  split_ifs at ended with fresh
  · cases stepped : stepPart opens part with
    | none =>
      rw [stepped,after_broken] at ended
      rcases ended with bad | bad <;> cases bad
    | some later =>
      rw [stepped] at ended
      exact ⟨fun id same => fresh.1 id (Option.mem_toList.mpr same),
        fun id same => fresh.2 id (Option.mem_toList.mpr same),later,rfl,ended⟩
  · rw [after_broken] at ended
    rcases ended with bad | bad <;> cases bad

end

theorem ended_sound : ∀ (opens : Finset PartKey) (ids : List PartId) (tools : List ToolCallId),
    ((running opens ids tools).after parts).Ended → Sound opens parts ∧
      Fresh { id | id ∈ ids } ((live parts).filterMap partId) ∧
      Fresh { id | id ∈ tools } ((live parts).filterMap toolInputId) := by
  induction parts with
  | nil =>
    intro opens ids tools ended
    rcases ended with bad | bad <;> cases bad
  | cons part rest ih =>
    intro opens ids tools ended
    rw [after_cons] at ended
    by_cases inner : Inner part
    · obtain ⟨freshId,freshTool,later,stepped,ended⟩ := next_ended inner ended
      obtain ⟨sound,ids',tools'⟩ := ih later _ _ ended
      have single : ∀ p ∈ [part], Inner p := by simpa using inner
      have alive : live (part :: rest) = part :: live rest := live_inner rest single
      have taken : ∀ (old : List String) (new : Option String),
          ({ id | id ∈ old ++ new.toList } : Set String) = { id | new = some id } ∪ { id | id ∈ old } := by
        intro old new
        ext id
        simp [or_comm]
      rw [taken] at ids' tools'
      refine ⟨(Proper.cons_iff.mpr ⟨inner,later,stepped,.nil later⟩).sound sound,?_,?_⟩
      · rw [alive,filterMap_cons_toList]
        exact Fresh.cons_iff.mpr ⟨freshId,ids'⟩
      · rw [alive,filterMap_cons_toList]
        exact Fresh.cons_iff.mpr ⟨freshTool,tools'⟩
    · cases part with
      | Error error => exact ⟨.failed error rest (.nil opens),⟨nodup_nil,by simp [live]⟩,⟨nodup_nil,by simp [live]⟩⟩
      | Finish reason usage metadata =>
        simp only [next] at ended
        split_ifs at ended with closed
        · cases rest with
          | nil =>
            subst closed
            have noId : (live [.Finish reason usage metadata]).filterMap partId = [] := rfl
            have noTool : (live [.Finish reason usage metadata]).filterMap toolInputId = [] := rfl
            rw [noId,noTool]
            exact ⟨.finished (.nil ∅),by simp [Fresh],by simp [Fresh]⟩
          | cons =>
            rw [after_finished] at ended
            rcases ended with bad | bad <;> cases bad
        · rw [after_broken] at ended
          rcases ended with bad | bad <;> cases bad
      | StreamStart =>
        rw [next,after_broken] at ended
        rcases ended with bad | bad <;> cases bad
      | _ => exact absurd ⟨rfl,rfl⟩ inner

theorem next_ne_failed {t : Tally} {part : StreamPart} (whole : t ≠ .failed) (noError : ∀ error, part ≠ .Error error) :
    t.next part ≠ .failed := by
  cases t with
  | running opens =>
    by_cases inner : Inner part
    · rw [next_inner inner]
      split_ifs
      · cases stepPart opens part <;> exact Tally.noConfusion
      · exact Tally.noConfusion
    · cases part with
      | Error error => exact absurd rfl (noError error)
      | Finish =>
        rw [next_finish]
        split_ifs <;> exact Tally.noConfusion
      | StreamStart => exact Tally.noConfusion
      | _ => exact absurd ⟨rfl,rfl⟩ inner
  | failed => exact absurd rfl whole
  | _ => exact Tally.noConfusion

theorem failed_no_finish : ∀ t : Tally, t ≠ .failed → t.after parts = .failed →
    ∀ reason usage metadata, .Finish reason usage metadata ∉ live parts := by
  induction parts with
  | nil => intro t _ _ _ _ _ mem; cases mem
  | cons part rest ih =>
    intro t whole fails reason usage metadata mem
    rw [after_cons] at fails
    by_cases noError : ∀ error, part ≠ .Error error
    · have alive : live (part :: rest) = part :: live rest := by
        refine takeWhile_cons_of_pos ?_
        cases part with
        | Error error => exact absurd rfl (noError error)
        | _ => rfl
      rw [alive] at mem
      rcases List.mem_cons.mp mem with rfl | after
      · -- Nothing fails after a finish.
        cases t with
        | running =>
          rw [next_finish] at fails
          split_ifs at fails
          · cases rest with
            | nil => cases fails
            | cons part rest => cases (after_finished part rest).symm.trans fails
          · cases (after_broken rest).symm.trans fails
        | failed => exact whole rfl
        | _ => cases (after_broken rest).symm.trans fails
      · exact ih _ (next_ne_failed whole noError) fails reason usage metadata after
    · obtain ⟨_,rfl⟩ := not_forall_not.mp noError
      cases mem

theorem driven_of_finished : ∀ (t : Tally) (o : OpenParts), t.after parts = .finished →
    (enqueue o parts).1 = parts := by
  induction parts with
  | nil => intro t o _; rfl
  | cons part rest ih =>
    intro t o finishes
    rw [after_cons] at finishes
    cases part with
    | Error =>
      cases t with
      | running => cases (after_failed rest).symm.trans finishes
      | failed => cases (after_failed rest).symm.trans finishes
      | finished => cases (after_broken rest).symm.trans finishes
      | broken => cases (after_broken rest).symm.trans finishes
    | _ => exact congrArg (_ :: ·) (ih _ _ finishes)

theorem finish_live : ∀ (o : OpenParts) reason usage metadata,
    .Finish reason usage metadata ∈ (enqueue o parts).1 → .Finish reason usage metadata ∈ live parts := by
  induction parts with
  | nil => intro o _ _ _ mem; cases mem
  | cons part _ ih =>
    intro o reason usage metadata mem
    cases part with
    | Error =>
      simp only [enqueue,OpenParts.close,mem_append,mem_map,mem_singleton] at mem
      rcases mem with ((⟨_,-,bad⟩ | ⟨_,-,bad⟩) | ⟨_,-,bad⟩) | bad <;> cases bad
    | _ =>
      rcases List.mem_cons.mp mem with same | later
      · exact List.mem_cons.mpr (.inl same)
      · exact List.mem_cons.mpr (.inr (ih _ _ _ _ later))

end Tally

theorem check_ok_of_tally {σ χ : Type} (m : StreamMachine σ χ) (state : σ) (warnings : List Warning)
    (chunks : List (ParseResult χ)) (include_raw : Bool)
    (ended : ((Tally.running ∅ [] []).after (outputs m include_raw state chunks)).Ended) :
    StreamContractChecker.check (drive_stream (.StreamStart warnings) chunks m state include_raw) = .ok () := by
  obtain ⟨sound,ids,tools⟩ := Tally.ended_sound _ _ _ _ ended
  rw [check_ok_iff,drive_stream,drive_eq,obeys_iff_fresh sound warnings]
  exact ⟨ids.1,tools.1⟩

def strokes (n : Nat) : String := String.ofList (List.replicate n 'i')

theorem strokes_injective : Function.Injective strokes := by
  intro n k same
  have lists := String.ofList_injective same
  simpa using congrArg List.length lists

theorem strokes_ne {id : String} {c : Char} (mem : c ∈ id.toList) (other : c ≠ 'i') (n : Nat) : strokes n ≠ id := by
  rintro rfl
  rw [strokes,String.toList_ofList] at mem
  exact other (eq_of_mem_replicate mem)

end Ferrin.Stream
