import Ferrin.StreamText.Events
import Ferrin.Library.Gathering

/-!
The content that a stream adds up to, as its parts start and update it, before
any call is parsed. Content gathers into runs: text goes on with text, reasoning
with reasoning.
-/
namespace Ferrin.StreamText
open Ferrin.GenerateText Ferrin.Gathering List Option
open Open (empty)

def Kind.said (kind : Kind) (text : String) (provider_metadata : Option ProviderMetadata) : Content :=
  match kind with
  | .text => .Text text provider_metadata
  | .reasoning => .Reasoning text provider_metadata

/-- `extend`, for content that is not parsed. -/
def extendContent (delta : Option String) (metadata : Option ProviderMetadata) : Content → Content
  | .Text text provider_metadata => .Text (text ++ delta.getD "") (metadata.or provider_metadata)
  | .Reasoning text provider_metadata => .Reasoning (text ++ delta.getD "") (metadata.or provider_metadata)
  | part => part

structure Accumulation where
  content : List Content
  parts : Open Nat

namespace Accumulation

def start : Accumulation := ⟨[],.empty⟩

def push (s : Accumulation) (part : Content) : Accumulation := { s with content := s.content ++ [part] }

def start_part (s : Accumulation) (kind : Kind) (id : PartId) (metadata : Option ProviderMetadata) : Accumulation :=
  ⟨s.content ++ [kind.said "" metadata],s.parts.put kind id s.content.length⟩

def update_part (s : Accumulation) (kind : Kind) (id : PartId) (delta : Option String)
    (metadata : Option ProviderMetadata) (ends : Bool) : Except Error Accumulation :=
  match s.parts.lookup kind id with
  | none => .error (.InvalidStreamPart s!"{kind.name} part `{id}` is not open")
  | some index => .ok
    ⟨s.content.modify index (extendContent delta metadata),if ends then s.parts.remove kind id else s.parts⟩

def step (s : Accumulation) : StreamPart → Except Error Accumulation
  | .TextStart id metadata => .ok (s.start_part .text id metadata)
  | .TextDelta id delta metadata => s.update_part .text id (some delta) metadata false
  | .TextEnd id metadata => s.update_part .text id none metadata true
  | .ReasoningStart id metadata => .ok (s.start_part .reasoning id metadata)
  | .ReasoningDelta id delta metadata => s.update_part .reasoning id (some delta) metadata false
  | .ReasoningEnd id metadata => s.update_part .reasoning id none metadata true
  | .ToolCall call => .ok (s.push (.ToolCall call))
  | .ToolResult result => .ok (s.push (.ToolResult result))
  | .ToolApprovalRequest approval_id tool_call_id metadata =>
    .ok (s.push (.ToolApprovalRequest approval_id tool_call_id metadata))
  | .File data media_type filename metadata => .ok (s.push (.File data media_type filename metadata))
  | .ReasoningFile data media_type metadata => .ok (s.push (.ReasoningFile data media_type metadata))
  | .Source source => .ok (s.push (.Source source))
  | .Custom kind metadata => .ok (s.push (.Custom kind metadata))
  | _ => .ok s

def after (s : Accumulation) (parts : List StreamPart) : Except Error Accumulation := parts.foldlM step s

theorem after_append (s : Accumulation) (first second : List StreamPart) :
    s.after (first ++ second) = s.after first >>= fun t => t.after second := by
  rw [after,foldlM_append]
  rfl

def silent : StreamPart → Bool
  | .StreamStart _ | .ResponseMetadata .. | .ToolInputStart .. | .ToolInputDelta .. | .ToolInputEnd .. | .Finish ..
  | .Raw _ | .Error _ => true
  | _ => false

theorem after_silent {parts : List StreamPart} (quiet : ∀ part ∈ parts, silent part = true) (s : Accumulation) :
    s.after parts = .ok s := by
  induction parts with
  | nil => rfl
  | cons part _ ih =>
    have stays : s.step part = .ok s := by
      have := quiet part (by simp)
      cases part <;> first | rfl | cases this
    rw [after,foldlM_cons,stays]
    exact ih fun other mem => quiet other (by simp [mem])

end Accumulation

def accumulate (parts : List StreamPart) : Except Error (List Content) :=
  (Accumulation.start.after parts).map (·.content)

/-! ### Content as runs -/

/-- Text and reasoning run on. Files end a run, as a provider ends its open part before them; a call to be executed
    by the client is told apart from what the provider executes. -/
def contentShape : Content → Shape Kind
  | .Text .. => .run .text
  | .Reasoning .. => .run .reasoning
  | .File .. | .ReasoningFile .. => .wall
  | .ToolCall call => if call.provider_executed then .aside else .call
  | _ => .aside

def continued : Content → Content → Content
  | .Text text metadata,.Text more later => .Text (text ++ more) (later.or metadata)
  | .Reasoning text metadata,.Reasoning more later => .Reasoning (text ++ more) (later.or metadata)
  | part,_ => part

theorem shape_continued (a b : Content) : contentShape (continued a b) = contentShape a := by
  cases a <;> cases b <;> rfl

variable (kind : Kind)

@[simp] theorem shape_said (text : String) (metadata : Option ProviderMetadata) :
    contentShape (kind.said text metadata) = .run kind := by
  cases kind <;> rfl

theorem shape_run {c : Content} {kind : Kind} : contentShape c = .run kind ↔ ∃ text metadata, c = kind.said text metadata := by
  constructor
  · intro isRun
    cases c with
    | Text text metadata => cases isRun; exact ⟨text,metadata,rfl⟩
    | Reasoning text metadata => cases isRun; exact ⟨text,metadata,rfl⟩
    | ToolCall =>
      rw [contentShape] at isRun
      split at isRun <;> cases isRun
    | _ => cases isRun
  · rintro ⟨text,metadata,rfl⟩
    exact shape_said kind text metadata

theorem continued_said (text more : String) (metadata later : Option ProviderMetadata) :
    continued (kind.said text metadata) (kind.said more later) = kind.said (text ++ more) (later.or metadata) := by
  cases kind <;> rfl

theorem continued_associative : Associative contentShape continued := by
  intro kind a b c first second third
  obtain ⟨_,_,rfl⟩ := shape_run.mp first
  obtain ⟨_,_,rfl⟩ := shape_run.mp second
  obtain ⟨_,_,rfl⟩ := shape_run.mp third
  rw [continued_said,continued_said,continued_said,continued_said,String.append_assoc,Option.or_assoc]

theorem extend_empty (text : String) (metadata : Option ProviderMetadata) :
    extendContent (some text) metadata (kind.said "" metadata) = kind.said text metadata := by
  cases kind <;> cases metadata <;> simp [extendContent,Kind.said]

theorem extend_said (text more : String) (metadata later : Option ProviderMetadata) :
    extendContent (some more) later (kind.said text metadata) = continued (kind.said text metadata) (kind.said more later) := by
  cases kind <;> rfl

def Kind.startPart (kind : Kind) (id : PartId) (metadata : Option ProviderMetadata) : StreamPart :=
  match kind with
  | .text => .TextStart id metadata
  | .reasoning => .ReasoningStart id metadata

def Kind.deltaPart (kind : Kind) (id : PartId) (delta : String) (metadata : Option ProviderMetadata) : StreamPart :=
  match kind with
  | .text => .TextDelta id delta metadata
  | .reasoning => .ReasoningDelta id delta metadata

def Kind.endPart (kind : Kind) (id : PartId) (metadata : Option ProviderMetadata) : StreamPart :=
  match kind with
  | .text => .TextEnd id metadata
  | .reasoning => .ReasoningEnd id metadata

structure Accumulates (s : Accumulation) (g : Gathered Content) (opened : Option (Kind × PartId)) : Prop where
  content : s.content = g.content
  parts : s.parts = opened.elim .empty fun part => empty.put part.1 part.2 g.closed.length
  runs : opened.map (fun part => Shape.run part.1) = g.opened.map fun run => contentShape run.1

theorem remove_put (id : PartId) (n : Nat) : ((empty.put kind id n).remove kind id) = empty := by
  cases kind <;> simp [Open.put,Open.remove,Open.set,Open.ids,empty,Assoc.put,Assoc.remove]

section
variable {s : Accumulation} {g : Gathered Content} {kind : Kind} {id : PartId}

theorem accumulates_start : Accumulates .start .start none := ⟨rfl,rfl,rfl⟩

theorem Accumulates.close {opened : Option (Kind × PartId)} (shows_ : Accumulates s g opened) {c : Content}
    (closes : contentShape c = .wall ∨ ∃ kind, contentShape c = .run kind ∧ opened.map Prod.fst ≠ some kind) :
    g.close.step contentShape continued c = g.step contentShape continued c := by
  obtain ⟨-,-,runs⟩ := shows_
  obtain ⟨_,run⟩ := g
  cases opened <;> cases run <;> try cases runs
  · exact step_close (by simp [Gathered.Proper]) (closes.imp_right fun ⟨kind,isRun,_⟩ => ⟨kind,isRun,by simp [Gathered.kind]⟩)
  · rename_i part run
    have same : contentShape run.1 = .run part.1 := (some.inj runs).symm
    refine step_close (by simp [Gathered.Proper,same,Shape.isRun]) (closes.imp_right ?_)
    rintro ⟨kind,isRun,other⟩
    exact ⟨kind,isRun,by simpa [Gathered.kind,same] using other⟩

theorem Accumulates.push {opened : Option (Kind × PartId)} (shows_ : Accumulates s g opened) {c : Content}
    (other : (contentShape c).isRun = false) (stays : opened = none ∨ contentShape c ≠ .wall) :
    Accumulates (s.push c) (g.step contentShape continued c) opened := by
  obtain ⟨content,_,_⟩ := shows_
  obtain ⟨_,run⟩ := g
  refine ⟨by rw [content_of_other other,Accumulation.push,content],?_,?_⟩ <;>
    cases opened <;> cases run <;> cases known : contentShape c <;>
      simp_all [Accumulation.push,Gathered.step,Shape.isRun]

theorem update_part_put (kind : Kind) (id : PartId) (content : List Content) (n : Nat) (delta : Option String)
    (metadata : Option ProviderMetadata) (ends : Bool) :
    Accumulation.update_part ⟨content,empty.put kind id n⟩ kind id delta metadata ends =
      .ok ⟨content.modify n (extendContent delta metadata),if ends then .empty else empty.put kind id n⟩ := by
  simp [Accumulation.update_part,Open.lookup_put,remove_put]

theorem modify_at (before : List Content) (c : Content) (after : List Content) (f : Content → Content) :
    (before ++ c :: after).modify before.length f = before ++ f c :: after := by
  induction before with
  | nil => rfl
  | cons _ _ ih => rw [cons_append,length_cons,modify_succ_cons,ih,cons_append]

theorem step_startPart (s : Accumulation) (kind : Kind) (id : PartId) (metadata : Option ProviderMetadata) :
    s.step (kind.startPart id metadata) = .ok (s.start_part kind id metadata) := by
  cases kind <;> rfl

theorem step_deltaPart (s : Accumulation) (kind : Kind) (id : PartId) (delta : String) (metadata : Option ProviderMetadata) :
    s.step (kind.deltaPart id delta metadata) = s.update_part kind id (some delta) metadata false := by
  cases kind <;> rfl

theorem step_endPart (s : Accumulation) (kind : Kind) (id : PartId) (metadata : Option ProviderMetadata) :
    s.step (kind.endPart id metadata) = s.update_part kind id none metadata true := by
  cases kind <;> rfl

theorem after_single (s : Accumulation) (part : StreamPart) : s.after [part] = s.step part := by
  rw [Accumulation.after,foldlM_cons]
  cases s.step part <;> rfl

namespace Accumulation

def opened (before : List Content) (kind : Kind) (id : PartId) (text : String) (metadata : Option ProviderMetadata)
    (after : List Content) : Accumulation :=
  ⟨before ++ kind.said text metadata :: after,empty.put kind id before.length⟩

variable {before after : List Content} {text : String} {metadata : Option ProviderMetadata}

theorem opened_start (before : List Content) (kind : Kind) (id : PartId) (metadata : Option ProviderMetadata) :
    Accumulation.step ⟨before,.empty⟩ (kind.startPart id metadata) = .ok (opened before kind id "" metadata []) :=
  step_startPart _ kind id metadata

theorem opened_delta (kind : Kind) (delta : String) (later : Option ProviderMetadata) :
    (opened before kind id text metadata after).step (kind.deltaPart id delta later) =
      .ok (opened before kind id (text ++ delta) (later.or metadata) after) := by
  rw [step_deltaPart,opened,update_part_put,modify_at,extend_said,continued_said]
  rfl

theorem opened_end (kind : Kind) (later : Option ProviderMetadata) :
    (opened before kind id text metadata after).step (kind.endPart id later) =
      .ok ⟨before ++ kind.said text (later.or metadata) :: after,.empty⟩ := by
  have ended : extendContent none later (kind.said text metadata) = kind.said text (later.or metadata) := by
    cases kind <;> simp [extendContent,Kind.said]
  rw [step_endPart,opened,update_part_put,modify_at,ended]
  rfl

end Accumulation

theorem Accumulates.opens (shows_ : Accumulates s g none) (kind : Kind) (id : PartId) (text : String)
    (metadata : Option ProviderMetadata) :
    ∃ t, s.after [kind.startPart id metadata,kind.deltaPart id text metadata] = .ok t ∧
      Accumulates t (g.step contentShape continued (kind.said text metadata)) (some (kind,id)) := by
  obtain ⟨content,_⟩ := s
  obtain ⟨rfl,rfl,runs⟩ := shows_
  obtain ⟨closed,run⟩ := g
  cases run with
  | some => cases runs
  | none =>
    have told : (closed ++ [kind.said "" metadata]).modify closed.length (extendContent (some text) metadata) =
        closed ++ [kind.said text metadata] := by
      rw [modify_at,extend_empty]
    refine ⟨⟨closed ++ [kind.said text metadata],empty.put kind id closed.length⟩,?_,?_⟩
    · rw [← singleton_append,Accumulation.after_append,after_single,step_startPart]
      simp only [Gathered.content,elim_none,append_nil,Accumulation.start_part]
      show Accumulation.after _ _ = _
      rw [after_single,step_deltaPart,update_part_put,told]
      rfl
    · rw [Gathered.step]
      simp only [shape_said]
      exact ⟨rfl,rfl,by simp⟩

theorem Accumulates.goesOn (shows_ : Accumulates s g (some (kind,id))) (text : String) (metadata : Option ProviderMetadata) :
    ∃ t, s.after [kind.deltaPart id text metadata] = .ok t ∧
      Accumulates t (g.step contentShape continued (kind.said text metadata)) (some (kind,id)) := by
  obtain ⟨content,_⟩ := s
  obtain ⟨rfl,rfl,runs⟩ := shows_
  obtain ⟨_,run⟩ := g
  cases run with
  | none => cases runs
  | some run =>
    obtain ⟨_,_⟩ := run
    obtain ⟨_,_,rfl⟩ := shape_run.mp (some.inj runs).symm
    refine ⟨_,by rw [after_single,step_deltaPart]; exact update_part_put ..,?_⟩
    rw [Gathered.step]
    simp only [shape_said,if_true]
    refine ⟨?_,rfl,?_⟩
    · simp only [Gathered.content,elim_some,modify_at,extend_said]
    · simp [shape_continued]

theorem Accumulates.ends (shows_ : Accumulates s g (some (kind,id))) :
    ∃ t, s.after [kind.endPart id none] = .ok t ∧ Accumulates t g.close none := by
  obtain ⟨content,_⟩ := s
  obtain ⟨rfl,rfl,runs⟩ := shows_
  obtain ⟨_,run⟩ := g
  cases run with
  | none => cases runs
  | some run =>
    obtain ⟨said,_⟩ := run
    obtain ⟨before,earlier,rfl⟩ := shape_run.mp (some.inj runs).symm
    have same : extendContent none none (kind.said before earlier) = kind.said before earlier := by
      cases kind <;> simp [extendContent,Kind.said]
    refine ⟨_,by rw [after_single,step_endPart]; exact update_part_put ..,?_,rfl,rfl⟩
    simp only [Gathered.content,Gathered.close,elim_some,elim_none,append_nil,modify_at,same]

end

end Ferrin.StreamText
