import Ferrin.Stream.Contract

/-!
The stream driver. A provider's state machine turns chunks into parts; the
driver sends them on, up to the first error, before which it closes what is
open. When the machine keeps its brackets and starts fresh ids, the driven
stream obeys the contract (`obeys_iff_fresh`).
-/
namespace Ferrin.Stream
open Ferrin.Brackets List

inductive ParseResult (χ : Type) where
  | Ok (value : χ) (raw : JsonValue)
  | Err (error : ProviderError) (raw : Option String)

/-- A state machine over chunks. A panic is `none`: it ends the stream there. -/
structure StreamMachine (σ χ : Type) where
  handle : σ → ParseResult χ → Bool → Option (σ × List StreamPart)
  finish : σ → List StreamPart

structure OpenParts where
  text : List PartId
  reasoning : List PartId
  tool_inputs : List ToolCallId

namespace OpenParts

def empty : OpenParts := ⟨[],[],[]⟩

def observe (o : OpenParts) : StreamPart → OpenParts
  | .TextStart id _ => { o with text := o.text ++ [id] }
  | .TextEnd id _ => { o with text := o.text.filter (· ≠ id) }
  | .ReasoningStart id _ => { o with reasoning := o.reasoning ++ [id] }
  | .ReasoningEnd id _ => { o with reasoning := o.reasoning.filter (· ≠ id) }
  | .ToolInputStart id .. => { o with tool_inputs := o.tool_inputs ++ [id] }
  | .ToolInputEnd id _ => { o with tool_inputs := o.tool_inputs.filter (· ≠ id) }
  | _ => o

def close (o : OpenParts) : List StreamPart :=
  o.tool_inputs.map (.ToolInputEnd · none) ++ o.reasoning.map (.ReasoningEnd · none) ++ o.text.map (.TextEnd · none)

end OpenParts

/-- `Driver::enqueue`: the queued parts, what is open then, and whether an error ended the stream. -/
def enqueue (o : OpenParts) : List StreamPart → List StreamPart × OpenParts × Bool
  | [] => ([],o,false)
  | .Error error :: _ => (o.close ++ [.Error error],.empty,true)
  | part :: rest =>
    let (queued,later,ended) := enqueue (o.observe part) rest
    (part :: queued,later,ended)

section
variable {σ χ : Type}

def drive (m : StreamMachine σ χ) (include_raw : Bool) : OpenParts → σ → List (ParseResult χ) → List StreamPart
  | o, state, [] => (enqueue o (m.finish state)).1
  | o, state, chunk :: rest =>
    match m.handle state chunk include_raw with
    | none => []
    | some (state,parts) =>
      let (queued,o,ended) := enqueue o parts
      if ended then queued else queued ++ drive m include_raw o state rest

def drive_stream (start : StreamPart) (chunks : List (ParseResult χ)) (m : StreamMachine σ χ) (state : σ)
    (include_raw : Bool) : List StreamPart :=
  start :: drive m include_raw .empty state chunks

/-- Everything the machine would emit over the chunks, errors or not. -/
def outputs (m : StreamMachine σ χ) (include_raw : Bool) : σ → List (ParseResult χ) → List StreamPart
  | state, [] => m.finish state
  | state, chunk :: rest =>
    match m.handle state chunk include_raw with
    | none => []
    | some (state,parts) => parts ++ outputs m include_raw state rest

def live (parts : List StreamPart) : List StreamPart := parts.takeWhile fun
  | .Error _ => false
  | _ => true

/-! ### One queue -/

theorem enqueue_append (before after : List StreamPart) : ∀ o : OpenParts, enqueue o (before ++ after) =
    if (enqueue o before).2.2 then enqueue o before
    else
      let (queued,later,ended) := enqueue (enqueue o before).2.1 after
      ((enqueue o before).1 ++ queued,later,ended) := by
  induction before with
  | nil => intro o; simp [enqueue]
  | cons part _ ih =>
    intro o
    cases part <;> simp only [cons_append,enqueue,ih] <;> split_ifs <;> simp_all

theorem drive_eq (m : StreamMachine σ χ) (include_raw : Bool) (chunks : List (ParseResult χ)) :
    ∀ (o : OpenParts) (state : σ), drive m include_raw o state chunks =
      (enqueue o (outputs m include_raw state chunks)).1 := by
  induction chunks with
  | nil => intro o state; rfl
  | cons chunk _ ih =>
    intro o state
    rw [drive,outputs]
    cases m.handle state chunk include_raw with
    | none => rfl
    | some next =>
      obtain ⟨next,_⟩ := next
      simp only [enqueue_append,ih]
      split_ifs <;> rfl

end

theorem toString_injective : Function.Injective (toString : Nat → PartId) := by
  intro m n same
  have digits : Nat.toDigits 10 m = Nat.toDigits 10 n := by
    rw [← Nat.toList_repr,← Nat.toList_repr]
    exact congrArg String.toList same
  rw [← @Nat.ofDigitChars_ten_toDigits m,digits,Nat.ofDigitChars_ten_toDigits]

section
variable {s t : Finset PartKey} {o : OpenParts} {part : StreamPart}

/-- The open names in the order in which they are closed. -/
def OpenParts.keys (o : OpenParts) : List PartKey :=
  o.tool_inputs.map .toolInput ++ o.reasoning.map .reasoning ++ o.text.map .text

structure Holds (o : OpenParts) (s : Finset PartKey) : Prop where
  text : ∀ id, .text id ∈ s ↔ id ∈ o.text
  reasoning : ∀ id, .reasoning id ∈ s ↔ id ∈ o.reasoning
  toolInput : ∀ id, .toolInput id ∈ s ↔ id ∈ o.tool_inputs
  onceText : o.text.Nodup
  onceReasoning : o.reasoning.Nodup
  onceToolInput : o.tool_inputs.Nodup

theorem holds_empty : Holds .empty ∅ := by constructor <;> simp [OpenParts.empty]

theorem Holds.observe (holds : Holds o s) (marked : stepPart s part = some t) : Holds (o.observe part) t := by
  obtain ⟨_,_,_,_,_,_⟩ := holds
  cases part <;> simp [stepPart,mark,step] at marked
  all_goals try obtain ⟨_,rfl⟩ := marked
  all_goals constructor <;>
    simp_all [OpenParts.observe,nodup_append,List.Nodup.filter] <;> grind

theorem Holds.keys (holds : Holds o s) : o.keys.Nodup ∧ o.keys.toFinset = s := by
  obtain ⟨text,reasoning,toolInput,onceText,onceReasoning,onceToolInput⟩ := holds
  constructor
  · have textKeys : (o.text.map PartKey.text).Nodup := onceText.map fun _ _ same => PartKey.text.inj same
    have reasoningKeys : (o.reasoning.map PartKey.reasoning).Nodup :=
      onceReasoning.map fun _ _ same => PartKey.reasoning.inj same
    have toolKeys : (o.tool_inputs.map PartKey.toolInput).Nodup :=
      onceToolInput.map fun _ _ same => PartKey.toolInput.inj same
    simp only [OpenParts.keys,nodup_append,textKeys,reasoningKeys,toolKeys,mem_map,mem_append,true_and]
    constructor
    · rintro _ ⟨_,-,rfl⟩ _ ⟨_,-,rfl⟩ same
      cases same
    · rintro _ (⟨_,-,rfl⟩ | ⟨_,-,rfl⟩) _ ⟨_,-,rfl⟩ same <;> cases same
  · ext key
    cases key <;> simp [OpenParts.keys,text,reasoning,toolInput]

theorem marks_close (o : OpenParts) : marks o.close = o.keys.map .closes := by
  simp [marks,OpenParts.close,OpenParts.keys,filterMap_append,filterMap_map,Function.comp_def,mark]

theorem close_inner (o : OpenParts) : ∀ part ∈ o.close, Inner part := by
  intro part mem
  simp only [OpenParts.close,mem_append,mem_map] at mem
  rcases mem with (⟨_,-,rfl⟩ | ⟨_,-,rfl⟩) | ⟨_,-,rfl⟩ <;> exact ⟨rfl,rfl⟩

theorem close_ids (o : OpenParts) : o.close.filterMap partId = [] ∧ o.close.filterMap toolInputId = [] := by
  constructor <;> simp [OpenParts.close,filterMap_append,filterMap_map,Function.comp_def,partId,toolInputId]

/-- Parts of a body that take the open names from `s` to `t`. -/
structure Proper (s : Finset PartKey) (parts : List StreamPart) (t : Finset PartKey) : Prop where
  inner : ∀ part ∈ parts, Inner part
  bracketed : run s (marks parts) = some t

theorem Proper.nil (s : Finset PartKey) : Proper s [] s := ⟨by simp,rfl⟩

theorem Proper.append {u : Finset PartKey} {before after : List StreamPart} (first : Proper s before t)
    (second : Proper t after u) : Proper s (before ++ after) u := by
  refine ⟨?_,?_⟩
  · intro part mem
    rcases List.mem_append.mp mem with early | late
    · exact first.inner part early
    · exact second.inner part late
  · rw [marks,filterMap_append,run_append]
    exact Option.bind_eq_some_iff.mpr ⟨t,first.bracketed,second.bracketed⟩

theorem Proper.cons_iff {rest : List StreamPart} :
    Proper s (part :: rest) t ↔ Inner part ∧ ∃ u, stepPart s part = some u ∧ Proper u rest t := by
  constructor
  · rintro ⟨inner,bracketed⟩
    rw [run_marks_cons,Option.bind_eq_some_iff] at bracketed
    obtain ⟨u,marked,later⟩ := bracketed
    exact ⟨inner part mem_cons_self,u,marked,fun p m => inner p (mem_cons_of_mem _ m),later⟩
  · rintro ⟨inner,u,marked,later⟩
    refine ⟨?_,?_⟩
    · intro p mem
      rcases List.mem_cons.mp mem with rfl | deeper
      · exact inner
      · exact later.inner p deeper
    · rw [run_marks_cons,marked]
      exact later.bracketed

/-- Output that breaks no bracket before its first error, and without an error
    closes everything and finishes. -/
inductive Sound (s : Finset PartKey) : List StreamPart → Prop where
  | finished {body : List StreamPart} {reason : FinishReason} {usage : Usage} {metadata : Option ProviderMetadata}
      (proper : Proper s body ∅) : Sound s (body ++ [.Finish reason usage metadata])
  | failed {before : List StreamPart} {t : Finset PartKey} (error : StreamError) (after : List StreamPart)
      (proper : Proper s before t) : Sound s (before ++ .Error error :: after)

theorem Proper.sound {before after : List StreamPart} (first : Proper s before t) (second : Sound t after) :
    Sound s (before ++ after) := by
  cases second with
  | finished proper =>
    rw [← append_assoc]
    exact .finished (first.append proper)
  | failed error after proper =>
    rw [← append_assoc]
    exact .failed error after (first.append proper)

theorem Proper.enqueue {body : List StreamPart} (rest : List StreamPart) : ∀ {s : Finset PartKey} {o : OpenParts},
    Proper s body t → Holds o s → ∃ o', Holds o' t ∧
      (Stream.enqueue o (body ++ rest)).1 = body ++ (Stream.enqueue o' rest).1 := by
  induction body with
  | nil =>
    intro s o proper holds
    have same : s = t := by simpa [marks] using proper.bracketed
    exact ⟨o,same ▸ holds,rfl⟩
  | cons part body ih =>
    intro s o proper holds
    obtain ⟨inner,u,marked,later⟩ := Proper.cons_iff.mp proper
    obtain ⟨o',held,queued⟩ := ih later (holds.observe marked)
    refine ⟨o',held,?_⟩
    have step : Stream.enqueue o (part :: (body ++ rest)) =
        (part :: (Stream.enqueue (o.observe part) (body ++ rest)).1,
          (Stream.enqueue (o.observe part) (body ++ rest)).2) := by
      cases part <;> first | rfl | cases inner.1
    rw [cons_append,step,queued]
    rfl

theorem obeys_body_iff {warnings : List Warning} {body : List StreamPart} {last : StreamPart} (ends : Ends ∅ body last) :
    Obeys (.StreamStart warnings :: (body ++ [last])) ↔
      (body.filterMap partId).Nodup ∧ (body.filterMap toolInputId).Nodup := by
  constructor
  · rintro ⟨_,_,_,whole,-,ids,toolIds⟩
    obtain ⟨rfl,-⟩ := append_inj' (List.cons.inj whole).2 rfl
    exact ⟨ids,toolIds⟩
  · rintro ⟨ids,toolIds⟩
    exact ⟨warnings,body,last,rfl,ends,ids,toolIds⟩

theorem live_inner {body : List StreamPart} (rest : List StreamPart) (inner : ∀ part ∈ body, Inner part) :
    live (body ++ rest) = body ++ live rest := by
  refine takeWhile_append_of_pos fun part mem => ?_
  have ordinary := (inner part mem).1
  cases part <;> first | rfl | cases ordinary

/-- A stream whose output keeps the brackets obeys the contract exactly when it
    starts every part, and every tool input, under an id of its own. -/
theorem obeys_iff_fresh {parts : List StreamPart} (sound : Sound ∅ parts) (warnings : List Warning) :
    Obeys (.StreamStart warnings :: (enqueue .empty parts).1) ↔
      ((live parts).filterMap partId).Nodup ∧ ((live parts).filterMap toolInputId).Nodup := by
  cases sound with
  | @finished body reason usage metadata proper =>
    obtain ⟨o,-,sent⟩ := proper.enqueue [.Finish reason usage metadata] holds_empty
    have alive : live (body ++ [.Finish reason usage metadata]) = body ++ [.Finish reason usage metadata] :=
      live_inner _ proper.inner
    have queued : (Stream.enqueue o [.Finish reason usage metadata]).1 = [.Finish reason usage metadata] := rfl
    have noId : [StreamPart.Finish reason usage metadata].filterMap partId = [] := rfl
    have noToolId : [StreamPart.Finish reason usage metadata].filterMap toolInputId = [] := rfl
    rw [sent,alive,queued,obeys_body_iff ⟨proper.inner,rfl,proper.bracketed⟩,filterMap_append,
      filterMap_append,noId,noToolId,append_nil,append_nil]
  | @failed before t error after proper =>
    obtain ⟨o,holds,sent⟩ := proper.enqueue (.Error error :: after) holds_empty
    have alive : live (before ++ .Error error :: after) = before := by
      rw [live_inner _ proper.inner]
      exact append_nil before
    have closed : run t (marks o.close) = some ∅ := by
      rw [marks_close,← holds.keys.2]
      exact run_close_all o.keys holds.keys.1
    have body : Proper ∅ (before ++ o.close) ∅ := proper.append ⟨close_inner o,closed⟩
    rw [sent,alive,Stream.enqueue,← append_assoc,
      obeys_body_iff ⟨body.inner,rfl,body.bracketed⟩,filterMap_append,filterMap_append,
      (close_ids o).1,(close_ids o).2,append_nil,append_nil]

end

end Ferrin.Stream
