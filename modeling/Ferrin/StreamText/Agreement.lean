import Ferrin.Library.Brackets
import Ferrin.StreamText.StageLedger

/-!
The two loops agree on a step. Model content that is streamed as well-paired
parts, its texts split into any deltas, leads to the same calls, texts, tool
message and counters as the content itself (`steps_agree`).
-/
namespace Ferrin.StreamText
open Ferrin.GenerateText Ferrin.Approval Ferrin.Brackets List Assembly Option
open Result (bind_ok)

/-! ### Streamed content -/

def mark : StreamPart → Option (Mark (Kind × PartId))
  | .TextStart id _ => some (.opens (.text,id))
  | .TextDelta id _ _ => some (.within (.text,id))
  | .TextEnd id _ => some (.closes (.text,id))
  | .ReasoningStart id _ => some (.opens (.reasoning,id))
  | .ReasoningDelta id _ _ => some (.within (.reasoning,id))
  | .ReasoningEnd id _ => some (.closes (.reasoning,id))
  | _ => none

def deltaText : StreamPart → String
  | .TextDelta _ delta _ | .ReasoningDelta _ delta _ => delta
  | _ => ""

def spoken (part : Kind × PartId) : List StreamPart → String
  | [] => ""
  | p :: rest =>
    match mark p with
    | some (.within k) => if k = part then deltaText p ++ spoken part rest else spoken part rest
    | some (.closes k) => if k = part then "" else spoken part rest
    | _ => spoken part rest

def atom : StreamPart → Option Content
  | .ToolCall call => some (.ToolCall call)
  | .ToolResult result => some (.ToolResult result)
  | .ToolApprovalRequest approval_id tool_call_id metadata => some (.ToolApprovalRequest approval_id tool_call_id metadata)
  | .File data media_type filename metadata => some (.File data media_type filename metadata)
  | .ReasoningFile data media_type metadata => some (.ReasoningFile data media_type metadata)
  | .Source source => some (.Source source)
  | .Custom kind metadata => some (.Custom kind metadata)
  | _ => none

def goesOn : StreamPart → Bool
  | .TextDelta .. | .TextEnd .. | .ReasoningDelta .. | .ReasoningEnd .. | .ToolInputStart .. | .ToolInputDelta ..
  | .ToolInputEnd .. | .Raw _ | .ResponseMetadata .. => true
  | _ => false

inductive Streams : List StreamPart → List Content → Prop where
  | done : Streams [] []
  | text {rest : List StreamPart} {content : List Content} (id : PartId) (started metadata : Option ProviderMetadata)
      (later : Streams rest content) :
      Streams (.TextStart id started :: rest) (.Text (spoken (.text,id) rest) metadata :: content)
  | reasoning {rest : List StreamPart} {content : List Content} (id : PartId)
      (started metadata : Option ProviderMetadata) (later : Streams rest content) :
      Streams (.ReasoningStart id started :: rest) (.Reasoning (spoken (.reasoning,id) rest) metadata :: content)
  | goesOn {part : StreamPart} {rest : List StreamPart} {content : List Content} (quiet : goesOn part = true)
      (later : Streams rest content) : Streams (part :: rest) content
  | atom {part : StreamPart} {c : Content} {rest : List StreamPart} {content : List Content}
      (carries : atom part = some c) (later : Streams rest content) : Streams (part :: rest) (c :: content)

/-- Every part of text or reasoning is opened, goes on while it is open, and is closed. -/
def WellPaired (parts : List StreamPart) : Prop := run ∅ (parts.filterMap mark) = some ∅

instance (parts : List StreamPart) : Decidable (WellPaired parts) := inferInstanceAs (Decidable (_ = _))

def parsedCalls (parse : ParseContext) (content : List Content) : List ParsedToolCall :=
  content.filterMap fun
    | .ToolCall call => some (parse_tool_call parse call)
    | _ => none

def References (parse : ParseContext) : List ParsedToolCall → List Content → Prop
  | _,[] => True
  | calls,.ToolCall call :: rest => References parse (calls ++ [parse_tool_call parse call]) rest
  | calls,.ToolApprovalRequest _ tool_call_id _ :: rest =>
    (∃ call ∈ calls, call.tool_call_id = tool_call_id) ∧ References parse calls rest
  | calls,_ :: rest => References parse calls rest

def speech : StepContent → Option (Kind × String)
  | .Text text _ => some (.text,text)
  | .Reasoning text _ => some (.reasoning,text)
  | _ => none

def contentSpeech : Content → Option (Kind × String)
  | .Text text _ => some (.text,text)
  | .Reasoning text _ => some (.reasoning,text)
  | _ => none

def further (more : String) (said : Kind × String) : Kind × String := (said.1,said.2 ++ more)

theorem speech_extend (delta : Option String) (metadata : Option ProviderMetadata) (part : StepContent) :
    speech (extend delta metadata part) = (speech part).map (further (delta.getD "")) := by
  cases part <;> rfl

theorem texts_of_speech (content : List StepContent) : text content =
    String.join ((content.filterMap speech).filterMap fun said => if said.1 = .text then some said.2 else none) := by
  unfold text
  rw [filterMap_filterMap]
  congr 2
  funext part
  cases part <;> rfl

theorem reasonings_of_speech (content : List StepContent) : content.filterMap (·.asReasoning) =
    (content.filterMap speech).filterMap fun said => if said.1 = .reasoning then some said.2 else none := by
  rw [filterMap_filterMap]
  congr 1
  funext part
  cases part <;> rfl

structure Settled (s : Assembly) (rest : List StreamPart) (said : List (Option (Kind × String))) : Prop where
  length : said.length = s.content.length
  open_ : ∀ part index content, s.parts.lookup part.1 part.2 = some index → s.content[index]? = some content →
    said[index]? = some ((speech content).map (further (spoken part rest)))
  closed : ∀ index content, (∀ part : Kind × PartId, s.parts.lookup part.1 part.2 ≠ some index) →
    s.content[index]? = some content → said[index]? = some (speech content)

structure Placed (s : Assembly) (opened : Finset (Kind × PartId)) : Prop where
  known : ∀ part, part ∈ opened ↔ (s.parts.lookup part.1 part.2).isSome
  within : ∀ (part : Kind × PartId) index, s.parts.lookup part.1 part.2 = some index → index < s.content.length
  own : ∀ (part other : Kind × PartId) index, s.parts.lookup part.1 part.2 = some index → s.parts.lookup other.1 other.2 = some index →
    part = other

variable {said : List (Option (Kind × String))} {rest : List StreamPart} {opened : Finset (Kind × PartId)}
  {kind : Kind} {id : PartId} {calls : List ParsedToolCall} {r : StepResult} {call : ParsedToolCall}

theorem Settled.final {s : Assembly} (settled : Settled s [] said)
    (placed : Placed s ∅) : s.content.filterMap speech = said.filterMap fun said => said := by
  have same : said = s.content.map speech := by
    refine ext_getElem? fun index => ?_
    rw [getElem?_map]
    cases found : s.content[index]? with
    | none =>
      have outside := List.getElem?_eq_none_iff.mp found
      simpa [settled.length] using outside
    | some content =>
      refine settled.closed index content (fun part isOpen => ?_) found
      have := (placed.known part).mpr (by rw [isOpen]; rfl)
      simp at this
  rw [same,filterMap_map]
  rfl

theorem Settled.append {s t : Assembly} {part : StreamPart}
    (settled : Settled s (part :: rest) said) (more : List StepContent)
    (content : t.content = s.content ++ more) (parts : t.parts = s.parts) (unmarked : mark part = none)
    (placed : Placed s opened) : Settled t rest (said ++ more.map speech) ∧ Placed t opened := by
  have quiet : ∀ k, spoken k (part :: rest) = spoken k rest := by
    intro k
    rw [spoken,unmarked]
  refine ⟨⟨?_,?_,?_⟩,⟨?_,?_,?_⟩⟩
  · simp [content,settled.length]
  · intro k index found isOpen here
    rw [parts] at isOpen
    have inside := placed.within k index isOpen
    rw [content,getElem?_append_left inside] at here
    rw [getElem?_append_left (settled.length ▸ inside),← quiet]
    exact settled.open_ k index found isOpen here
  · intro index found isClosed here
    rw [parts] at isClosed
    rw [content] at here
    by_cases inside : index < s.content.length
    · rw [getElem?_append_left inside] at here
      rw [getElem?_append_left (settled.length ▸ inside)]
      exact settled.closed index found isClosed here
    · rw [getElem?_append_right (by omega)] at here
      rw [getElem?_append_right (by rw [settled.length]; omega),settled.length,getElem?_map,here]
      rfl
  · rw [parts]
    exact placed.known
  · intro k index isOpen
    rw [parts] at isOpen
    have := placed.within k index isOpen
    rw [content,length_append]
    omega
  · rw [parts]
    exact placed.own

theorem Settled.start {s : Assembly} {part : StreamPart}
    (settled : Settled s (part :: rest) said) (placed : Placed s opened) (marked : mark part = some (.opens (kind,id)))
    (new : (kind,id) ∉ opened) (metadata : Option ProviderMetadata) :
    Settled (s.start_part kind id metadata) rest (said ++ [some (kind,spoken (kind,id) rest)]) ∧
      Placed (s.start_part kind id metadata) (insert (kind,id) opened) := by
  have quiet : ∀ k, spoken k (part :: rest) = spoken k rest := by
    intro k
    rw [spoken,marked]
  have absent : s.parts.lookup kind id = none := by
    have := (placed.known (kind,id)).not.mp new
    simpa using this
  have lookups : ∀ k : Kind × PartId, (s.start_part kind id metadata).parts.lookup k.1 k.2 =
      if k = (kind,id) then some s.content.length else s.parts.lookup k.1 k.2 := by
    intro k
    show (s.parts.put kind id s.content.length).lookup k.1 k.2 = _
    rw [Open.lookup_put]
    simp [Prod.ext_iff]
  have content : (s.start_part kind id metadata).content = s.content ++ [kind.start metadata] := rfl
  have silent : speech (kind.start metadata) = some (kind,"") := by cases kind <;> rfl
  refine ⟨⟨?_,?_,?_⟩,⟨?_,?_,?_⟩⟩
  · simp [content,settled.length]
  · intro k index found isOpen here
    rw [lookups] at isOpen
    rw [content] at here
    split_ifs at isOpen with same
    · obtain rfl := some.inj isOpen
      rw [getElem?_append_right (Nat.le_refl _),Nat.sub_self] at here
      rw [getElem?_append_right (by rw [settled.length]),settled.length,Nat.sub_self,
        ← some.inj here,silent,same]
      simp [further]
    · have inside := placed.within k index isOpen
      rw [getElem?_append_left inside] at here
      rw [getElem?_append_left (settled.length ▸ inside),← quiet]
      exact settled.open_ k index found isOpen here
  · intro index found isClosed here
    rw [content] at here
    by_cases inside : index < s.content.length
    · rw [getElem?_append_left inside] at here
      rw [getElem?_append_left (settled.length ▸ inside)]
      refine settled.closed index found (fun k isOpen => isClosed k ?_) here
      rw [lookups]
      split_ifs with same
      · rw [same,absent] at isOpen
        cases isOpen
      · exact isOpen
    · exfalso
      have last : index = s.content.length := by
        have := (List.getElem?_eq_some_iff.mp here).1
        simp at this
        omega
      exact isClosed (kind,id) (by rw [lookups,if_pos rfl,last])
  · intro k
    rw [Finset.mem_insert,lookups]
    split_ifs with same
    · simp [same]
    · simp [same,placed.known]
  · intro k index isOpen
    rw [lookups] at isOpen
    rw [content,length_append,length_singleton]
    split_ifs at isOpen
    · obtain rfl := some.inj isOpen
      omega
    · have := placed.within k index isOpen
      omega
  · intro k other index one two
    rw [lookups] at one two
    split_ifs at one two with first second second
    · rw [first,second]
    · obtain rfl := some.inj one
      exact absurd (placed.within other _ two) (Nat.lt_irrefl _)
    · obtain rfl := some.inj two
      exact absurd (placed.within k _ one) (Nat.lt_irrefl _)
    · exact placed.own k other index one two

theorem Settled.update {s : Assembly} {part : StreamPart}
    {delta : Option String} {isEnd : Bool} (settled : Settled s (part :: rest) said) (placed : Placed s opened)
    (marked : mark part = some (if isEnd then .closes (kind,id) else .within (kind,id)))
    (adds : delta.getD "" = if isEnd then "" else deltaText part) (isOpen : (kind,id) ∈ opened)
    (metadata : Option ProviderMetadata) : ∃ t, s.update_part kind id delta metadata isEnd = .ok t ∧
      Settled t rest said ∧ Placed t (if isEnd then opened.erase (kind,id) else opened) ∧
      t.calls = s.calls ∧ t.result_ids = s.result_ids := by
  obtain ⟨place,found⟩ := Option.isSome_iff_exists.mp ((placed.known (kind,id)).mp isOpen)
  have lookups : ∀ k : Kind × PartId, (if isEnd then s.parts.remove kind id else s.parts).lookup k.1 k.2 =
      if isEnd = true ∧ k = (kind,id) then none else s.parts.lookup k.1 k.2 := by
    intro k
    cases isEnd <;> simp [Open.lookup_remove,Prod.ext_iff]
  have others : ∀ k, k ≠ (kind,id) → spoken k (part :: rest) = spoken k rest := by
    intro k differs
    rw [spoken,marked]
    cases isEnd <;> simp [Ne.symm differs]
  have here : spoken (kind,id) (part :: rest) = delta.getD "" ++ if isEnd then "" else spoken (kind,id) rest := by
    rw [spoken,marked,adds]
    cases isEnd <;> simp
  refine ⟨_,update_part_some found,⟨?_,?_,?_⟩,⟨?_,?_,?_⟩,rfl,rfl⟩
  · simpa using settled.length
  · intro k index content openK at_
    have openK : (if isEnd = true ∧ k = (kind,id) then none else s.parts.lookup k.1 k.2) = some index :=
      (lookups k).symm.trans openK
    split_ifs at openK with gone
    have at_ : (s.content.modify place (extend delta metadata))[index]? = some content := at_
    rw [getElem?_modify] at at_
    by_cases same : k = (kind,id)
    · subst same
      obtain rfl := some.inj (found.symm.trans openK)
      obtain ⟨old,oldAt,rfl⟩ := Option.map_eq_some_iff.mp at_
      have stays : isEnd = false := by simpa using gone
      have := settled.open_ (kind,id) place old openK oldAt
      rw [this,here,if_pos rfl,speech_extend,stays]
      cases speech old <;> simp [further,String.append_assoc]
    · have elsewhere : place ≠ index := by
        rintro rfl
        exact same (placed.own k (kind,id) place openK found)
      obtain ⟨old,oldAt,rfl⟩ := Option.map_eq_some_iff.mp at_
      rw [if_neg elsewhere,← others k same]
      exact settled.open_ k index old openK oldAt
  · intro index content isClosed at_
    have isClosed : ∀ k : Kind × PartId, (if isEnd = true ∧ k = (kind,id) then none else s.parts.lookup k.1 k.2) ≠ some index :=
      fun k => lookups k ▸ isClosed k
    have at_ : (s.content.modify place (extend delta metadata))[index]? = some content := at_
    rw [getElem?_modify] at at_
    obtain ⟨old,oldAt,rfl⟩ := Option.map_eq_some_iff.mp at_
    by_cases ended : isEnd = true ∧ place = index
    · obtain ⟨ends,rfl⟩ := ended
      rw [settled.open_ (kind,id) place old found oldAt,here,if_pos rfl,speech_extend,ends]
      cases speech old <;> simp [further]
    · have elsewhere : place ≠ index := by
        rintro rfl
        refine isClosed (kind,id) ?_
        rw [if_neg (fun both => ended ⟨both.1,rfl⟩)]
        exact found
      rw [if_neg elsewhere]
      refine settled.closed index old (fun k openK => isClosed k ?_) oldAt
      rw [if_neg]
      · exact openK
      · rintro ⟨-,rfl⟩
        exact elsewhere (some.inj (found.symm.trans openK))
  · intro k
    show _ ↔ isSome (Open.lookup (if isEnd then s.parts.remove kind id else s.parts) k.1 k.2) = true
    rw [lookups]
    cases isEnd with
    | false => simpa using placed.known k
    | true =>
      by_cases same : k = (kind,id)
      · simp [same]
      · simpa [same] using placed.known k
  · intro k index openK
    have openK : (if isEnd = true ∧ k = (kind,id) then none else s.parts.lookup k.1 k.2) = some index :=
      (lookups k).symm.trans openK
    split_ifs at openK
    simpa using placed.within k index openK
  · intro k other index one two
    have one : (if isEnd = true ∧ k = (kind,id) then none else s.parts.lookup k.1 k.2) = some index :=
      (lookups k).symm.trans one
    have two : (if isEnd = true ∧ other = (kind,id) then none else s.parts.lookup other.1 other.2) = some index :=
      (lookups other).symm.trans two
    split_ifs at one two
    exact placed.own k other index one two

section
variable {ctx : LoopContext} {inputs : StepInputs}

/-- What the assembly of a stream comes to, against the content that is streamed. -/
structure Renders (inputs : StepInputs) (s t : Assembly) (said : List (Option (Kind × String))) (content : List Content) :
    Prop where
  speech : t.content.filterMap speech = said.filterMap (fun said => said) ++ content.filterMap contentSpeech
  calls : t.calls = s.calls ++ parsedCalls inputs.parse content
  result_ids : t.result_ids = s.result_ids ∪ provider_result_ids content

theorem provider_result_ids_cons (c : Content) (content : List Content) :
    provider_result_ids (c :: content) = provider_result_ids [c] ∪ provider_result_ids content := by
  unfold provider_result_ids
  rw [← toFinset_append,← filterMap_append]
  rfl

variable (parse : ParseContext)

theorem parsedCalls_cons (c : Content) (content : List Content) :
    parsedCalls parse (c :: content) = parsedCalls parse [c] ++ parsedCalls parse content := by
  unfold parsedCalls
  rw [← filterMap_append]
  rfl

theorem Assembly.step_atom {s : Assembly} {part : StreamPart} {c : Content} {content : List Content}
    (carries : atom part = some c) (references : References inputs.parse s.calls (c :: content)) :
    (∃ call ∈ parsedCalls inputs.parse [c], ∃ error, decision ctx inputs call = .error error ∧
      s.step ctx inputs part = .error error) ∨
    ∃ (t : Assembly) (more : List StepContent), s.step ctx inputs part = .ok t ∧ t.content = s.content ++ more ∧
      t.parts = s.parts ∧ more.filterMap speech = [] ∧ contentSpeech c = none ∧ mark part = none ∧
      t.calls = s.calls ++ parsedCalls inputs.parse [c] ∧ t.result_ids = s.result_ids ∪ provider_result_ids [c] ∧
      References inputs.parse t.calls content := by
  cases part <;> simp only [atom,reduceCtorEq,some.injEq] at carries <;> subst carries
  case ToolCall call =>
    cases decided : decision ctx inputs (parse_tool_call inputs.parse call) with
    | error error =>
      exact .inl ⟨_,mem_singleton_self _,error,decided,by simp only [Assembly.step,decided]; rfl⟩
    | ok approval =>
      have stepped : s.step ctx inputs (.ToolCall call) =
          .ok (s.add_call ctx inputs (parse_tool_call inputs.parse call) approval) := by
        simp only [Assembly.step,decided]
        rfl
      refine .inr ⟨_,_,stepped,rfl,rfl,?_,rfl,rfl,rfl,by simp [provider_result_ids,add_call],references⟩
      unfold follow
      cases approval with
      | none => cases fails (parse_tool_call inputs.parse call) <;> simp [speech]
      | some approval =>
        cases answer : approval.response <;> cases fails (parse_tool_call inputs.parse call) <;> simp [answer,speech]
  case ToolResult result =>
    refine .inr ⟨_,if result.preliminary && !result.is_error then [] else
      [provider_tool_result ctx.execution_tools s.calls result],rfl,?_,rfl,?_,rfl,rfl,by simp [parsedCalls],?_,references⟩
    · dsimp only
      split_ifs <;> simp
    · split_ifs
      · rfl
      · unfold provider_tool_result
        dsimp only
        split_ifs <;> rfl
    · show insert result.tool_call_id s.result_ids = _
      simp [provider_result_ids]
  case ToolApprovalRequest approval_id tool_call_id metadata =>
    obtain ⟨⟨call,known,same⟩,later⟩ := references
    obtain ⟨found,isFound⟩ : ∃ found, findCall s.calls tool_call_id = some found := by
      refine Option.isSome_iff_exists.mp ?_
      unfold findCall
      exact List.find?_isSome.mpr ⟨call,known,by simpa using same⟩
    have stepped : s.step ctx inputs (.ToolApprovalRequest approval_id tool_call_id metadata) =
        .ok (s.push (.ToolApprovalRequest (provider_approval_request approval_id found metadata))) := by
      simp only [Assembly.step,isFound]
    exact .inr ⟨_,_,stepped,rfl,rfl,rfl,rfl,rfl,by simp [parsedCalls,push],
      by simp [provider_result_ids,push],later⟩
  all_goals
    exact .inr ⟨_,[_],rfl,rfl,rfl,rfl,rfl,rfl,by simp [parsedCalls,push],
      by simp [provider_result_ids,push],references⟩

theorem run_head {m : Mark (Kind × PartId)} {rest : List (Mark (Kind × PartId))}
    (paired : run opened (m :: rest) = some ∅) : match m with
      | .opens k => k ∉ opened ∧ run (insert k opened) rest = some ∅
      | .within k => k ∈ opened ∧ run opened rest = some ∅
      | .closes k => k ∈ opened ∧ run (opened.erase k) rest = some ∅ := by
  cases m with
  | opens k =>
    by_cases mem : k ∈ opened
    · simp [run,Brackets.step,mem] at paired
    · exact ⟨mem,by simpa [mem] using paired⟩
  | within k =>
    by_cases mem : k ∈ opened
    · exact ⟨mem,by simpa [mem] using paired⟩
    · simp [run,Brackets.step,mem] at paired
  | closes k =>
    by_cases mem : k ∈ opened
    · exact ⟨mem,by simpa [mem] using paired⟩
    · simp [run,Brackets.step,mem] at paired

variable {parts : List StreamPart} {result : GenerateResult}

theorem Streams.assembled {content : List Content} (streams : Streams parts content) :
    ∀ {s : Assembly} {opened : Finset (Kind × PartId)} {said : List (Option (Kind × String))},
    run opened (parts.filterMap mark) = some ∅ → Placed s opened → Settled s parts said →
    References inputs.parse s.calls content →
    (∃ t, parts.foldlM (Assembly.step ctx inputs) s = .ok t ∧ Renders inputs s t said content) ∨
    ∃ call ∈ parsedCalls inputs.parse content, ∃ error, decision ctx inputs call = .error error ∧
      parts.foldlM (Assembly.step ctx inputs) s = .error error := by
  induction streams with
  | done =>
    intro s opened said paired placed settled _
    obtain rfl : opened = ∅ := some.inj paired
    exact .inl ⟨s,rfl,⟨by simpa using settled.final placed,by simp [parsedCalls],by simp [provider_result_ids]⟩⟩
  | text id started _ _ ih =>
    intro s opened said paired placed settled references
    obtain ⟨new,paired⟩ := run_head (m := .opens (.text,id)) paired
    obtain ⟨settled,placed⟩ := settled.start placed rfl new started
    exact (ih paired placed settled references).imp_left fun ⟨t,assembled,renders⟩ =>
      ⟨t,assembled,⟨by rw [renders.speech]; simp [contentSpeech],renders.calls,renders.result_ids⟩⟩
  | reasoning id started _ _ ih =>
    intro s opened said paired placed settled references
    obtain ⟨new,paired⟩ := run_head (m := .opens (.reasoning,id)) paired
    obtain ⟨settled,placed⟩ := settled.start placed rfl new started
    exact (ih paired placed settled references).imp_left fun ⟨t,assembled,renders⟩ =>
      ⟨t,assembled,⟨by rw [renders.speech]; simp [contentSpeech],renders.calls,renders.result_ids⟩⟩
  | @goesOn part rest content quiet later ih =>
    intro s opened said paired placed settled references
    have update : ∀ {kind id delta} (isEnd : Bool) (metadata : Option ProviderMetadata),
        mark part = some (if isEnd = true then .closes (kind,id) else .within (kind,id)) →
        delta.getD "" = (if isEnd then "" else deltaText part) →
        s.step ctx inputs part = s.update_part kind id delta metadata isEnd →
        (∃ t, (part :: rest).foldlM (Assembly.step ctx inputs) s = .ok t ∧ Renders inputs s t said content) ∨
        ∃ call ∈ parsedCalls inputs.parse content, ∃ error, decision ctx inputs call = .error error ∧
          (part :: rest).foldlM (Assembly.step ctx inputs) s = .error error := by
      intro kind id delta isEnd metadata marked adds stepped
      rw [filterMap_cons,marked] at paired
      obtain ⟨isOpen,paired⟩ : (kind,id) ∈ opened ∧
          run (if isEnd then opened.erase (kind,id) else opened) (rest.filterMap mark) = some ∅ := by
        cases isEnd
        · exact run_head (m := .within (kind,id)) paired
        · exact run_head (m := .closes (kind,id)) paired
      obtain ⟨t,updated,settled,placed,calls,result_ids⟩ := settled.update placed marked adds isOpen metadata
      rw [foldlM_cons,stepped,updated]
      rw [← calls] at references
      exact (ih paired placed settled references).imp_left fun ⟨u,assembled,renders⟩ =>
        ⟨u,assembled,⟨renders.speech,calls ▸ renders.calls,result_ids ▸ renders.result_ids⟩⟩
    have idle : s.step ctx inputs part = .ok s → mark part = none →
        (∃ t, (part :: rest).foldlM (Assembly.step ctx inputs) s = .ok t ∧ Renders inputs s t said content) ∨
        ∃ call ∈ parsedCalls inputs.parse content, ∃ error, decision ctx inputs call = .error error ∧
          (part :: rest).foldlM (Assembly.step ctx inputs) s = .error error := by
      intro stepped unmarked
      rw [filterMap_cons,unmarked] at paired
      obtain ⟨settled,placed⟩ := settled.append [] (by simp) rfl unmarked placed
      rw [map_nil,append_nil] at settled
      rw [foldlM_cons,stepped]
      exact ih paired placed settled references
    cases part with
    | TextDelta id delta metadata | ReasoningDelta id delta metadata => exact update false metadata rfl rfl rfl
    | TextEnd id metadata | ReasoningEnd id metadata => exact update true metadata rfl rfl rfl
    | ToolInputStart | ToolInputDelta | ToolInputEnd | Raw | ResponseMetadata => exact idle rfl rfl
    | _ => cases quiet
  | @atom part c rest content carries later ih =>
    intro s opened said paired placed settled references
    rw [foldlM_cons]
    rcases @step_atom ctx inputs s part c content carries references with
      ⟨call,mem,error,decided,stepped⟩ |
      ⟨t,more,stepped,added,parts,silent,wordless,unmarked,calls,result_ids,references⟩
    · refine .inr ⟨call,?_,error,decided,by rw [stepped]; rfl⟩
      rw [parsedCalls_cons]
      exact mem_append_left _ mem
    · rw [filterMap_cons,unmarked] at paired
      obtain ⟨settled,placed⟩ := settled.append more added parts unmarked placed
      rw [stepped]
      rcases ih paired placed settled references with ⟨u,assembled,renders⟩ | ⟨call,mem,failed⟩
      · refine .inl ⟨u,assembled,⟨?_,?_,?_⟩⟩
        · rw [renders.speech,filterMap_append,filterMap_map,filterMap_cons,wordless]
          show _ ++ more.filterMap speech ++ _ = _
          rw [silent,append_nil]
        · rw [renders.calls,calls,parsedCalls_cons _ c content,append_assoc]
        · rw [renders.result_ids,result_ids,provider_result_ids_cons c content,Finset.union_assoc]
      · refine .inr ⟨call,?_,failed⟩
        rw [parsedCalls_cons]
        exact mem_append_right _ mem

/-! ### The content of the other loop -/

theorem convert_from_calls (tools : ToolSet) (content : List Content) : ∀ calls,
    tool_calls (convert_from parse tools calls content) = parsedCalls parse content := by
  unfold GenerateText.tool_calls
  induction content with
  | nil => intro calls; rfl
  | cons c rest ih =>
    intro calls
    rw [convert_from,filterMap_append,ih,parsedCalls_cons parse c rest]
    congr 1
    cases c <;> simp only [convert_part,parsedCalls]
    case ToolResult result => simp [(@provider_tool_result_hosted tools calls result []).2.1]
    case ToolApprovalRequest approval_id tool_call_id metadata =>
      cases findCall calls tool_call_id <;> simp [StepContent.asToolCall]
    all_goals simp [StepContent.asToolCall]

theorem speech_none {part : StepContent} (noText : part.asText = none) (noReasoning : part.asReasoning = none) :
    speech part = none := by
  cases part with
  | Text => cases noText
  | Reasoning => cases noReasoning
  | _ => rfl

theorem convert_from_speech (tools : ToolSet) (content : List Content) : ∀ calls,
    (convert_from parse tools calls content).filterMap speech = content.filterMap contentSpeech := by
  induction content with
  | nil => intro calls; rfl
  | cons c _ ih =>
    intro calls
    rw [convert_from,filterMap_append,ih,filterMap_cons]
    cases c <;> simp only [convert_part]
    case ToolResult result =>
      have hosted := @provider_tool_result_hosted tools calls result []
      simp [speech_none hosted.2.2.1 hosted.2.2.2,contentSpeech]
    case ToolApprovalRequest approval_id tool_call_id metadata =>
      cases findCall calls tool_call_id <;> simp [speech,contentSpeech]
    all_goals simp [speech,contentSpeech]

theorem leaves_speech {outputs : List StepContent}
    (each : List.Forall₂ (Leaves ctx inputs) calls outputs) : outputs.filterMap speech = [] := by
  refine List.filterMap_eq_nil_iff.mpr fun output member => ?_
  obtain ⟨_,-,_,-,-,-,noText,noReasoning⟩ := Result.each_right each member
  exact speech_none noText noReasoning

theorem run_step_speech {duration_ms : ToolCallId → Nat} {pending : Finset ToolCallId}
    (done : run_step ctx inputs duration_ms result pending = .ok r) :
    r.content.filterMap speech = result.content.filterMap contentSpeech := by
  obtain ⟨_,_,-,-,executing,content,-⟩ := run_step_ok done
  have outputs_ := leaves_speech (execute_tools_ok executing)
  have invalid : (invalid_tool_errors (stepCalls ctx inputs result.content)).filterMap speech = [] := by
    simp [invalid_tool_errors,speech]
  rw [content]
  simp only [filterMap_append,convert_from_speech,outputs_,invalid]
  simp [speech]

structure Runs (ctx : LoopContext) (inputs : StepInputs) (finish_reason : FinishReason) (calls : List ParsedToolCall) :
    Prop where
  chosen : check_tool_choice inputs.parse.tool_choice calls = .ok ()
  resolved : ∀ call ∈ calls, ∃ approval, decision ctx inputs call = .ok approval
  ran : ∀ call ∈ (if is_tool_execution_allowed finish_reason then calls.filter (ready ctx inputs) else []),
    ∃ content, outcome ctx inputs call = [content]

theorem ledger_runs {finish_reason : FinishReason}
    (ledger : Ledger ctx inputs finish_reason calls r) : Runs ctx inputs finish_reason calls :=
  ⟨ledger.chosen,ledger.resolved,ledger.executed ▸ ledger.ran⟩

theorem tool_task_of_outcome {tool : Tool} {content : StepContent}
    (found : executable ctx call = some tool) (left : outcome ctx inputs call = [content])
    (duration_ms : ToolCallId → Nat) :
    ∃ content, tool_task inputs.messages inputs.environment duration_ms call tool = .ok content := by
  unfold outcome at left
  rw [found] at left
  dsimp only at left
  split at left
  · next done =>
    obtain ⟨tool_ctx,context,ran⟩ := bind_ok.mp done
    obtain ⟨other,again,-⟩ := run_tool_call_duration (duration_ms call.tool_call_id) ran
    exact ⟨other,bind_ok.mpr ⟨tool_ctx,context,again⟩⟩
  · cases left

theorem resolve_from_exists
    (resolved : ∀ call ∈ calls, ∃ approval, decision ctx inputs call = .ok approval) : ∀ start : StepApprovals,
    ∃ approvals, calls.foldlM (fun approvals call => do
      return StepApprovals.record approvals call (← decision ctx inputs call)) start = .ok approvals := by
  induction calls with
  | nil => exact fun start => ⟨start,rfl⟩
  | cons call _ ih =>
    intro start
    obtain ⟨approval,decided⟩ := resolved call mem_cons_self
    rw [foldlM_cons,decided]
    exact ih (fun other mem => resolved other (mem_cons_of_mem call mem)) (start.record call approval)

theorem Runs.run_step (runs : Runs ctx inputs result.finish_reason (stepCalls ctx inputs result.content))
    (distinct : ((stepCalls ctx inputs result.content).map (·.tool_call_id)).Nodup) (duration_ms : ToolCallId → Nat)
    (pending : Finset ToolCallId) : ∃ r, run_step ctx inputs duration_ms result pending = .ok r := by
  obtain ⟨approvals,resolving⟩ := resolve_from_exists runs.resolved ⟨[],[],∅⟩
  have resolving : resolve_approvals ctx inputs.messages inputs.environment (stepCalls ctx inputs result.content) =
    .ok approvals := resolving
  obtain ⟨-,-,-,blocked⟩ := resolve_approvals_ok resolving
  obtain ⟨outputs,executing⟩ : ∃ outputs, execute_tools ctx inputs.messages inputs.environment duration_ms
      (handed result.finish_reason (stepCalls ctx inputs result.content) approvals.blocked) = .ok outputs := by
    refine Result.mapM_ok_of_all fun task mem => ?_
    have listed : task.1 ∈ (tasks ctx (handed result.finish_reason (stepCalls ctx inputs result.content)
        approvals.blocked)).map (·.1) := mem_map_of_mem mem
    have executed : (tasks ctx (handed result.finish_reason (stepCalls ctx inputs result.content)
        approvals.blocked)).map (·.1) = if is_tool_execution_allowed result.finish_reason then
          (stepCalls ctx inputs result.content).filter (ready ctx inputs) else [] := by
      unfold handed
      split_ifs
      · exact to_execute_ready distinct blocked
      · rfl
    rw [executed] at listed
    obtain ⟨_,left⟩ := runs.ran task.1 listed
    exact tool_task_of_outcome (mem_tasks mem) left duration_ms
  refine ⟨_,bind_ok.mpr ⟨(),runs.chosen,bind_ok.mpr ⟨approvals,resolving,
    bind_ok.mpr ⟨outputs,executing,rfl⟩⟩⟩⟩

theorem Streams.plain {content : List Content} (streams : Streams parts content) :
    ∀ part ∈ parts, isControl part = false := by
  induction streams with
  | done => simp
  | text | reasoning => simpa [isControl]
  | @goesOn part rest content quiet later ih =>
    intro other mem
    rcases List.mem_cons.mp mem with rfl | late
    · cases other <;> first | rfl | cases quiet
    · exact ih other late
  | @atom part c rest content carries later ih =>
    intro other mem
    rcases List.mem_cons.mp mem with rfl | late
    · cases other <;> first | rfl | cases carries
    · exact ih other late

theorem View.read_body {possible : Bool} {retries : StreamError → Bool} {finish_reason : FinishReason} {usage : Usage}
    {metadata : Option ProviderMetadata} (parts : List StreamPart) (plain : ∀ part ∈ parts, isControl part = false) :
    ∀ {v : View},
      (∀ t, parts.foldlM (Assembly.step ctx inputs) v.assembly = .ok t →
        v.read ctx inputs possible retries (parts ++ [.Finish finish_reason usage metadata]) =
          (t.content,.Finished <$> t.finish inputs finish_reason)) ∧
      ∀ error, parts.foldlM (Assembly.step ctx inputs) v.assembly = .error error →
        (v.read ctx inputs possible retries (parts ++ [.Finish finish_reason usage metadata])).2 = .error error := by
  induction parts with
  | nil =>
    intro v
    refine ⟨fun t done => ?_,fun error failed => (by cases failed)⟩
    cases done
    rfl
  | cons part _ ih =>
    intro v
    rw [foldlM_cons,cons_append,View.read_part (plain part mem_cons_self)]
    unfold View.step
    cases stepped : v.assembly.step ctx inputs part with
    | error =>
      refine ⟨fun t done => (by cases done),fun other failed => ?_⟩
      cases failed
      rfl
    | ok s => exact @ih (fun other mem => plain other (mem_cons_of_mem part mem)) ⟨s,_,_⟩

end

/-- Two steps that executed the same calls, said the same, and leave the same tool message and counters. -/
structure Agree (ctx : LoopContext) (r r' : StepResult) : Prop where
  executed : r.executed = r'.executed
  text : text r.content = text r'.content
  reasoning : reasoning_text r.content = reasoning_text r'.content
  tool_message : tool_parts ctx.tools r.content = tool_parts ctx.tools r'.content
  state : r.state = r'.state
  pending_deferred : r.pending_deferred = r'.pending_deferred

section
variable {ctx : LoopContext} {inputs : StepInputs} {stage : StageContext} {parts : List StreamPart} {content : List Content}

theorem mem_tool_call_order {content : List StepContent} (mem : call ∈ tool_calls content) :
    call.tool_call_id ∈ tool_call_order content := by
  have grows : ∀ (calls : List ParsedToolCall) (order : List ToolCallId), order ⊆ calls.foldl (fun order call =>
      if call.tool_call_id ∈ order then order else order ++ [call.tool_call_id]) order := by
    intro calls
    induction calls with
    | nil => exact fun order => List.Subset.refl order
    | cons _ _ ih =>
      intro order id present
      refine ih _ ?_
      dsimp only
      split_ifs
      · exact present
      · exact mem_append_left _ present
  have each : ∀ (calls : List ParsedToolCall) (order : List ToolCallId), call ∈ calls →
      call.tool_call_id ∈ calls.foldl (fun order call =>
        if call.tool_call_id ∈ order then order else order ++ [call.tool_call_id]) order := by
    intro calls
    induction calls with
    | nil => intro order here; cases here
    | cons _ rest ih =>
      intro order here
      rcases List.mem_cons.mp here with rfl | later
      · refine grows rest _ ?_
        dsimp only
        split_ifs with present
        · exact present
        · simp
      · exact ih _ later
  exact each _ [] mem

theorem ledger_tool_parts {finish_reason : FinishReason} {r' : StepResult}
    (ledger : Ledger ctx inputs finish_reason calls r) (ledger' : Ledger ctx inputs finish_reason calls r') :
    tool_parts ctx.tools r.content = tool_parts ctx.tools r'.content := by
  have order : order_of r.content = order_of r'.content := by
    unfold order_of tool_call_order
    rw [ledger.listed,ledger'.listed]
  have known : ∀ {s : StepResult}, Ledger ctx inputs finish_reason calls s →
      ∀ entry ∈ s.content.flatMap (tool_part ctx.tools), entry.1 ∈ tool_call_order r.content := by
    intro s kept entry mem
    have here : entry ∈ (s.content.flatMap (tool_part ctx.tools)).filter (·.1 = entry.1) := by
      simpa using mem
    rw [kept.parts] at here
    obtain ⟨_,inCalls,-⟩ := List.mem_flatMap.mp here
    obtain ⟨present,same⟩ := List.mem_filter.mp inCalls
    rw [← of_decide_eq_true same]
    exact mem_tool_call_order (ledger.listed.symm ▸ present)
  have injective : ∀ {one two : ToolCallId}, one ∈ tool_call_order r.content → order_of r.content one = order_of r.content two →
      one = two := fun present same => (idxOf_inj present).mp same
  unfold tool_parts
  rw [← order]
  congr 1
  refine StableSort.sortByKey_eq fun place => ?_
  by_cases used : ∃ id ∈ tool_call_order r.content, order_of r.content id = place
  · obtain ⟨id,_,rfl⟩ := used
    have byId : ∀ {s : StepResult}, Ledger ctx inputs finish_reason calls s →
        (s.content.flatMap (tool_part ctx.tools)).filter (order_of r.content ·.1 = order_of r.content id) =
          (s.content.flatMap (tool_part ctx.tools)).filter (·.1 = id) := by
      intro s kept
      refine filter_congr fun entry mem => ?_
      have iff : order_of r.content entry.1 = order_of r.content id ↔ entry.1 = id :=
        ⟨injective (known kept entry mem),congrArg _⟩
      simp only [iff]
    rw [byId ledger,byId ledger',ledger.parts,ledger'.parts]
  · have none_ : ∀ {s : StepResult}, Ledger ctx inputs finish_reason calls s →
        (s.content.flatMap (tool_part ctx.tools)).filter (order_of r.content ·.1 = place) = [] := by
      intro s kept
      refine List.filter_eq_nil_iff.mpr fun entry mem here => ?_
      exact used ⟨entry.1,known kept entry mem,by simpa using here⟩
    rw [none_ ledger,none_ ledger']

theorem placed_start : Placed .start ∅ where
  known part := by
    have nothing : Assembly.start.parts.lookup part.1 part.2 = none := Open.lookup_empty part.1 part.2
    simp [nothing]
  within part index found := by cases (Open.lookup_empty part.1 part.2).symm.trans found
  own part other index found := by cases (Open.lookup_empty part.1 part.2).symm.trans found

theorem settled_start : Settled .start parts [] where
  length := rfl
  open_ part index said found := by cases (Open.lookup_empty part.1 part.2).symm.trans found
  closed index said _ found := by cases found

theorem stream_step_streams {pending_deferred : Finset ToolCallId} {warnings : List Warning}
    {finish_reason : FinishReason} {usage : Usage} {metadata : Option ProviderMetadata}
    (streams : Streams parts content) (paired : WellPaired parts) (references : References inputs.parse [] content)
    (done : stream_step ctx inputs stage pending_deferred
      [.StreamStart warnings :: parts ++ [.Finish finish_reason usage metadata]] = .ok r) :
    r.finish_reason = finish_reason ∧ tool_calls r.content = parsedCalls inputs.parse content ∧
      r.content.filterMap speech = content.filterMap contentSpeech ∧
      r.pending_deferred = track_deferred (parsedCalls inputs.parse content) (provider_result_ids content)
        ctx.execution_tools pending_deferred ∧ r.state.pending_deferred = r.pending_deferred.card := by
  obtain ⟨t,_,outputs,kept,-,⟨read,only,retries,isView⟩,-,perm,-,each,isContent,-,pending,state⟩ := stream_step_ok done
  obtain rfl := List.mem_singleton.mp only
  have body := @View.read_body ctx inputs stage.stream.retries_possible retries finish_reason usage metadata parts
    streams.plain .start
  have isView : View.start.read ctx inputs stage.stream.retries_possible retries
    (parts ++ [.Finish finish_reason usage metadata]) = _ := isView
  rcases @Streams.assembled ctx inputs parts content streams .start ∅ [] paired placed_start settled_start references with
    ⟨u,assembled,renders⟩ | ⟨call,mem,error,-,failed⟩
  · obtain ⟨sameContent,sameResult⟩ := Prod.mk.inj ((body.1 u assembled).symm.trans isView)
    obtain ⟨calls,result_ids,isFinish⟩ : u.calls = t.calls ∧ u.result_ids = t.result_ids ∧
        finish_reason = r.finish_reason := by
      obtain ⟨_,finished,isResult⟩ := Result.map_ok.mp sameResult
      obtain ⟨_,-,finished⟩ := bind_ok.mp finished
      cases finished
      simp only [AttemptOutcome.Finished.injEq,ModelCallEnd.mk.injEq] at isResult
      exact ⟨isResult.2.1,isResult.2.2.2.1,isResult.1⟩
    have isCalls : t.calls = parsedCalls inputs.parse content := calls ▸ renders.calls
    have late : outputs.filterMap speech = [] :=
      List.perm_nil.mp ((perm.filterMap _).trans (List.Perm.of_eq (leaves_speech each)))
    refine ⟨isFinish.symm,?_,?_,?_,by rw [state]⟩
    · rw [← isCalls]
      exact step_calls kept perm each isContent
    · rw [isContent,filterMap_append,late,append_nil,← sameContent,renders.speech]
      rfl
    · rw [pending,isCalls,← result_ids,renders.result_ids]
      simp [start]
  · have same := body.2 error failed
    rw [isView] at same
    cases same

variable {sent : List StreamEvent} {result : ModelCallEnd}

theorem Reads.finished {b : Attempt} {view : List StepContent × Except Error AttemptOutcome}
    (reads : Reads ctx sent b (.ok (.Finished result)) view) :
    ∃ shown, Processor.new.process ctx b.sent = .ok (inStep shown) := by
  generalize isFinished : Except.ok (AttemptOutcome.Finished result) = outcome at reads
  cases reads with
  | retried => cases isFinished
  | settled shown _ shows => exact ⟨shown,shows.sent⟩
  | silent => cases isFinished

theorem finish_step_exists {shown : StepAccumulator}
    (processed : Processor.new.process ctx sent = .ok (inStep shown)) (pending_deferred : Finset ToolCallId)
    (ran : ∀ task ∈ spawned ctx inputs stage
      (if is_tool_execution_allowed result.finish_reason then result.queued else []),
      ∃ content, task.outcome = .ok content) : ∃ r, finish_step ctx inputs stage pending_deferred sent result = .ok r := by
  have queued : (if is_tool_execution_allowed result.finish_reason then tasks ctx result.queued else []) =
      tasks ctx (if is_tool_execution_allowed result.finish_reason then result.queued else []) := by
    split_ifs <;> rfl
  obtain ⟨outputs,completed⟩ := stage.schedule.completes _ ran
  have shows : ∀ content ∈ outputs, (content_event content).isSome :=
    (stage.schedule.sends _ _ completed).shown fun task mem content finished => (spawned_outcome mem finished).2
  have handled : Processor.new.process ctx
      (sent ++ outputs.filterMap content_event ++ [.FinishStep result.finish_reason]) =
        (inStep { shown with content := shown.content ++ outputs.filter (!isPreliminary ·) }).finish_step ctx
          result.finish_reason := by
    rw [append_assoc,process_append_ok processed,process_append_ok (process_contents outputs shown shows)]
    rfl
  unfold finish_step
  rw [queued]
  exact ⟨_,bind_ok.mpr ⟨outputs,completed,bind_ok.mpr ⟨_,handled,rfl⟩⟩⟩

theorem Runs.stream_step {finish_reason : FinishReason} (streams : Streams parts content) (paired : WellPaired parts)
    (references : References inputs.parse [] content) (runs : Runs ctx inputs finish_reason (parsedCalls inputs.parse content))
    (warnings : List Warning) (usage : Usage) (metadata : Option ProviderMetadata) (pending_deferred : Finset ToolCallId) :
    ∃ r, stream_step ctx inputs stage pending_deferred
      [.StreamStart warnings :: parts ++ [.Finish finish_reason usage metadata]] = .ok r := by
  rcases @Streams.assembled ctx inputs parts content streams .start ∅ [] paired placed_start settled_start references with
    ⟨u,assembled,renders⟩ | ⟨call,mem,error,failed,-⟩
  swap
  · obtain ⟨_,decided⟩ := runs.resolved call mem
    cases failed.symm.trans decided
  have kept := @Assembly.Kept.after_run ctx inputs parts _ _ kept_start assembled
  have calls : u.calls = parsedCalls inputs.parse content := renders.calls
  have finished : u.finish inputs finish_reason =
      .ok ⟨finish_reason,u.calls,u.queued,u.result_ids,u.client_outputs,u.denied⟩ :=
    bind_ok.mpr ⟨(),calls ▸ runs.chosen,rfl⟩
  have reads := @Begins.reads ctx inputs stage.stream _ _ (begins_new stage.used_part_ids) (.StreamStart warnings :: parts ++ [.Finish finish_reason usage metadata])
  have isView : View.start.read ctx inputs stage.stream.retries_possible
      ((Attempt.new stage.used_part_ids).retries stage.stream)
      (.StreamStart warnings :: parts ++ [.Finish finish_reason usage metadata]) =
      (u.content,.ok (.Finished ⟨finish_reason,u.calls,u.queued,u.result_ids,u.client_outputs,u.denied⟩)) := by
    have body := (@View.read_body ctx inputs stage.stream.retries_possible
      ((Attempt.new stage.used_part_ids).retries stage.stream) finish_reason usage metadata parts streams.plain
      .start).1 u assembled
    rw [finished] at body
    exact body
  rw [isView] at reads
  cases attempted : (Attempt.new stage.used_part_ids).read_attempt ctx inputs stage.stream false
      (.StreamStart warnings :: parts ++ [.Finish finish_reason usage metadata]) with
  | mk b outcome =>
    rw [attempted] at reads
    obtain rfl : outcome = _ := reads.outcome
    have read := read_last [] attempted (by intro retry; cases retry)
    obtain ⟨_,processed⟩ := reads.finished
    unfold StreamText.stream_step
    rw [read]
    refine finish_step_exists processed pending_deferred fun task mem => ?_
    obtain ⟨⟨call,_⟩,inTasks,rfl⟩ := List.mem_map.mp mem
    have listed : call ∈ (tasks ctx (if is_tool_execution_allowed finish_reason then u.queued else [])).map (·.1) :=
      mem_map_of_mem inTasks
    have isReady : call ∈ (if is_tool_execution_allowed finish_reason then
        (parsedCalls inputs.parse content).filter (ready ctx inputs) else []) := by
      rw [tasks_calls] at listed
      have queued := mem_of_mem_filter listed
      rw [kept.queued,calls] at queued
      exact queued
    obtain ⟨_,only⟩ := runs.ran call isReady
    exact tool_task_of_outcome (mem_tasks inTasks) only stage.duration_ms

end

end Ferrin.StreamText
