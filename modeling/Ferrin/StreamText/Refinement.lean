import Ferrin.StreamText.Assembly
import Ferrin.StreamText.Stage

/-!
The attempt and the processor together assemble the content of a stream: the
processor, given the events of the parts so far, holds what the assembly holds
(`map_part_simulates`), whatever ids were reserved on the way.
-/
namespace Ferrin.StreamText
open Ferrin.GenerateText Ferrin.Approval List Assembly Option Open
open Processor (handle new process)

/-! ### The processor inside a step -/

def inStep (acc : StepAccumulator) : Processor := { new with current := some acc }

theorem process_nil (ctx : LoopContext) (p : Processor) : p.process ctx [] = .ok p := rfl

variable {ctx : LoopContext}

theorem process_append (p : Processor) (before after : List StreamEvent) :
    p.process ctx (before ++ after) = (p.process ctx before).bind (·.process ctx after) := by
  unfold process
  rw [foldlM_append]
  rfl

theorem process_cons (p : Processor) (event : StreamEvent) (rest : List StreamEvent) :
    p.process ctx (event :: rest) = (p.handle ctx event).bind (·.process ctx rest) := by
  unfold process
  rw [foldlM_cons]
  rfl

theorem process_append_ok {p q : Processor} {before after : List StreamEvent}
    (first : p.process ctx before = .ok q) : p.process ctx (before ++ after) = q.process ctx after := by
  rw [process_append,first]
  rfl

section
variable {ctx : LoopContext} {inputs : StepInputs} {stream : StreamConfig}

theorem push_inStep (acc : StepAccumulator) (part : StepContent) :
    (inStep acc).push_content part = inStep { acc with content := acc.content ++ [part] } := rfl

theorem start_inStep (acc : StepAccumulator) (kind : Kind) (id : PartId) (metadata : Option ProviderMetadata) :
    (inStep acc).start_part kind id metadata = .ok (inStep (acc.start_part kind id metadata)) := rfl

variable {acc acc' : StepAccumulator} {kind : Kind} {id : PartId} {delta : Option String}
  {metadata : Option ProviderMetadata} {ends : Bool} {content : List StepContent} {index : Nat} {a a' : Attempt}
  {s : Assembly} {call : ToolCall} {part : StreamPart}

theorem update_inStep (updated : acc.update_part kind id delta metadata ends = .ok acc') :
    (inStep acc).update_part kind id delta metadata ends = .ok (inStep acc') := by
  show (do return { inStep acc with current := some (← acc.update_part kind id delta metadata ends) }) = _
  rw [updated]
  rfl

theorem candidate_injective (id : PartId) : Function.Injective (candidate id) := by
  intro m n same
  have digits : Nat.toDigits 10 m = Nat.toDigits 10 n := by
    have lists := congrArg String.toList same
    simp only [candidate,String.toList_append] at lists
    rw [← Nat.toList_repr,← Nat.toList_repr]
    exact append_cancel_left lists
  rw [← @Nat.ofDigitChars_ten_toDigits m,digits,Nat.ofDigitChars_ten_toDigits]

theorem first_free_fresh (used : List PartId) (id : PartId) : ∀ fuel n,
    (∃ m, n ≤ m ∧ m ≤ n + fuel ∧ candidate id m ∉ used) → first_free used id fuel n ∉ used := by
  intro fuel
  induction fuel with
  | zero =>
    rintro n ⟨m,least,most,free⟩
    obtain rfl : m = n := by omega
    exact free
  | succ _ ih =>
    rintro n ⟨m,least,_,free⟩
    unfold first_free
    split_ifs with taken
    · refine ih (n + 1) ⟨m,?_,by omega,free⟩
      rcases Nat.eq_or_lt_of_le least with rfl | later
      · exact absurd taken free
      · exact later
    · exact taken

theorem reserve_part_id_fresh (used : List PartId) (id : PartId) : reserve_part_id used id ∉ used := by
  unfold reserve_part_id
  split_ifs with taken
  · apply first_free_fresh
    by_contra none
    push Not at none
    have covered : (range (used.length + 1)).map (fun k => candidate id (1 + k)) ⊆ used := by
      intro name mem
      obtain ⟨k,within,rfl⟩ := List.mem_map.mp mem
      exact none (1 + k) (by omega) (by have := List.mem_range.mp within; omega)
    have distinct : ((range (used.length + 1)).map fun k => candidate id (1 + k)).Nodup :=
      List.nodup_range.map fun j k same => by have := candidate_injective id same; omega
    have short := (subperm_of_subset distinct covered).length_le
    rw [length_map,length_range] at short
    omega
  · exact taken

/-- The attempt and the processor, given the events so far, against the assembly. -/
structure Simulates (a : Attempt) (acc : StepAccumulator) (s : Assembly) : Prop where
  content : acc.content = s.content
  places : ∀ kind id, (a.state.open_ids.lookup kind id).bind (acc.parts.lookup kind ·) = s.parts.lookup kind id
  known : ∀ kind id mapped, a.state.open_ids.lookup kind id = some mapped → (acc.parts.lookup kind mapped).isSome
  distinct : ∀ kind id other mapped, a.state.open_ids.lookup kind id = some mapped →
    a.state.open_ids.lookup kind other = some mapped → id = other
  reserved : ∀ kind id mapped, a.state.open_ids.lookup kind id = some mapped → mapped ∈ a.used_ids
  prose : ∀ kind id index, s.parts.lookup kind id = some index → (s.content[index]?).any isProse = true
  calls : a.state.tool_calls = s.calls
  queued : a.state.queued = s.queued
  result_ids : a.state.result_ids = s.result_ids
  client_outputs : a.state.client_outputs = s.client_outputs
  denied : a.state.denied = s.denied

/-- What a part leaves alone in the attempt. -/
structure Frame (a a' : Attempt) : Prop where
  sent : a'.sent = a.sent
  buffer : a'.state.buffer = a.state.buffer
  open_text : a'.state.open_text = a.state.open_text
  open_reasoning : a'.state.open_reasoning = a.state.open_reasoning
  started_step : a'.started_step = a.started_step
  attempt : a'.attempt = a.attempt
  automatic_retries : a'.automatic_retries = a.automatic_retries
  callback_retries : a'.callback_retries = a.callback_retries

theorem Frame.refl (a : Attempt) : Frame a a := ⟨rfl,rfl,rfl,rfl,rfl,rfl,rfl,rfl⟩

theorem isProse_extend (delta : Option String) (metadata : Option ProviderMetadata) (part : StepContent) :
    isProse (extend delta metadata part) = isProse part := by
  cases part <;> rfl

theorem prose_append (more : List StepContent)
    (prose : (content[index]?).any isProse = true) : ((content ++ more)[index]?).any isProse = true := by
  obtain ⟨_,found,_⟩ := (any_eq_true _ _).mp prose
  have within : index < content.length := (List.getElem?_eq_some_iff.mp found).1
  rwa [getElem?_append_left within]

theorem prose_modify (place : Nat) (delta : Option String)
    (metadata : Option ProviderMetadata) (prose : (content[index]?).any isProse = true) :
    ((content.modify place (extend delta metadata))[index]?).any isProse = true := by
  obtain ⟨_,found,isProse_⟩ := (any_eq_true _ _).mp prose
  rw [getElem?_modify,found]
  split_ifs
  · simpa [isProse_extend] using isProse_
  · simpa using isProse_

theorem prose_start (content : List StepContent) (kind : Kind) (metadata : Option ProviderMetadata) :
    ((content ++ [kind.start metadata])[content.length]?).any isProse = true := by
  rw [getElem?_append_right (Nat.le_refl _),Nat.sub_self]
  cases kind <;> rfl

theorem Simulates.start (sim : Simulates a acc s) (kind : Kind) (id : PartId) (metadata : Option ProviderMetadata) :
    Simulates (a.start_part kind id metadata).1
      (acc.start_part kind (a.start_part kind id metadata).2 metadata) (s.start_part kind id metadata) := by
  have fresh := reserve_part_id_fresh a.used_ids id
  unfold Attempt.start_part StepAccumulator.start_part start_part
  constructor
  case content => simp [sim.content]
  case places =>
    intro other key
    have before := sim.places other key
    simp only [lookup_put]
    by_cases here : other = kind ∧ key = id
    · simp [here,sim.content]
    · simp only [if_neg here]
      cases found : a.state.open_ids.lookup other key with
      | none => simpa [found] using before
      | some mapped =>
        have old : mapped ≠ reserve_part_id a.used_ids id := fun same =>
          fresh (same ▸ sim.reserved other key mapped found)
        simpa [found,old] using before
  case known =>
    intro other key mapped found
    simp only [lookup_put] at found ⊢
    split_ifs at found with here
    · obtain rfl := some.inj found
      simp [here.1]
    · split_ifs
      · rfl
      · exact sim.known other key mapped found
  case distinct =>
    intro other key key' mapped found found'
    simp only [lookup_put] at found found'
    split_ifs at found found' with here here' there
    · rw [here.2,here'.2]
    · obtain rfl := some.inj found
      exact absurd (sim.reserved _ _ _ found') fresh
    · obtain rfl := some.inj found'
      exact absurd (sim.reserved _ _ _ found) fresh
    · exact sim.distinct other key key' mapped found found'
  case reserved =>
    intro other key mapped found
    simp only [lookup_put] at found
    split_ifs at found with here
    · obtain rfl := some.inj found
      exact mem_cons_self
    · exact mem_cons_of_mem _ (sim.reserved other key mapped found)
  case prose =>
    intro other key index found
    simp only [lookup_put] at found
    split_ifs at found with here
    · obtain rfl := some.inj found
      exact prose_start s.content kind metadata
    · exact prose_append _ (sim.prose other key index found)
  case calls => exact sim.calls
  case queued => exact sim.queued
  case result_ids => exact sim.result_ids
  case client_outputs => exact sim.client_outputs
  case denied => exact sim.denied

theorem Attempt.update_part_none (closed : a.state.open_ids.lookup kind id = none) :
    a.update_part kind id delta metadata ends = .error (.InvalidStreamPart s!"{kind.name} part `{id}` is not open") := by
  unfold update_part
  rw [closed]

theorem Assembly.update_part_none (closed : s.parts.lookup kind id = none) :
    s.update_part kind id delta metadata ends = .error (.InvalidStreamPart s!"{kind.name} part `{id}` is not open") := by
  unfold update_part
  rw [closed]

theorem Assembly.update_part_some (isOpen : s.parts.lookup kind id = some index) :
    s.update_part kind id delta metadata ends = .ok { s with
      content := s.content.modify index (extend delta metadata)
      parts := if ends then s.parts.remove kind id else s.parts } := by
  unfold update_part
  rw [isOpen]

theorem Simulates.update (sim : Simulates a acc s) (kind : Kind)
    (id : PartId) (delta : Option String) (metadata : Option ProviderMetadata) (ends : Bool) :
    (∃ error, a.update_part kind id delta metadata ends = .error error ∧
      s.update_part kind id delta metadata ends = .error error) ∨
    ∃ a' mapped acc' s', a.update_part kind id delta metadata ends = .ok (a',mapped) ∧ Frame a a' ∧
      a'.used_ids = a.used_ids ∧
      acc.update_part kind mapped delta metadata ends = .ok acc' ∧
      s.update_part kind id delta metadata ends = .ok s' ∧ Simulates a' acc' s' ∧
      (delta.getD "" = "" → metadata = none → ends = false → acc' = acc) := by
  cases found : a.state.open_ids.lookup kind id with
  | none =>
    have unknown : s.parts.lookup kind id = none := by simpa [found] using (sim.places kind id).symm
    exact .inl ⟨_,Attempt.update_part_none found,update_part_none unknown⟩
  | some mapped =>
    right
    obtain ⟨index,place⟩ := Option.isSome_iff_exists.mp (sim.known kind id mapped found)
    have here : s.parts.lookup kind id = some index := by simpa [found,place] using (sim.places kind id).symm
    have prose := sim.prose kind id index here
    have updated : acc.update_part kind mapped delta metadata ends = .ok { acc with
        content := acc.content.modify index (extend delta metadata)
        parts := if ends then acc.parts.remove kind mapped else acc.parts } := by
      unfold StepAccumulator.update_part
      simp [place,sim.content,prose]
    have attempted : ∃ content, a.update_part kind id delta metadata ends = .ok ({ a with state := { a.state with
        content := content
        open_ids := if ends then a.state.open_ids.remove kind id else a.state.open_ids } },mapped) := by
      unfold Attempt.update_part
      rw [found]
      exact ⟨_,rfl⟩
    obtain ⟨content,attempted⟩ := attempted
    refine ⟨_,mapped,_,_,attempted,⟨rfl,rfl,rfl,rfl,rfl,rfl,rfl,rfl⟩,rfl,updated,
      update_part_some here,?_,?_⟩
    · constructor
      case content => simp [sim.content]
      case places =>
        intro other key
        have before := sim.places other key
        cases ends with
        | false => exact before
        | true =>
          simp only [if_true,lookup_remove]
          by_cases same : other = kind ∧ key = id
          · simp [same]
          · simp only [if_neg same]
            cases foundKey : a.state.open_ids.lookup other key with
            | none => simpa [foundKey] using before
            | some mapped' =>
              have differs : ¬ (other = kind ∧ mapped' = mapped) := by
                rintro ⟨rfl,rfl⟩
                exact same ⟨rfl,sim.distinct other key id mapped' foundKey found⟩
              simpa [foundKey,differs] using before
      case known =>
        intro other key mapped' foundKey
        cases ends with
        | false => exact sim.known other key mapped' foundKey
        | true =>
          simp only [if_true,lookup_remove] at foundKey ⊢
          split_ifs at foundKey with same
          have differs : ¬ (other = kind ∧ mapped' = mapped) := by
            rintro ⟨rfl,rfl⟩
            exact same ⟨rfl,sim.distinct other key id mapped' foundKey found⟩
          rw [if_neg differs]
          exact sim.known other key mapped' foundKey
      case distinct =>
        intro other key key' mapped' one two
        cases ends with
        | false => exact sim.distinct other key key' mapped' one two
        | true =>
          simp only [if_true,lookup_remove] at one two
          split_ifs at one two
          exact sim.distinct other key key' mapped' one two
      case reserved =>
        intro other key mapped' foundKey
        cases ends with
        | false => exact sim.reserved other key mapped' foundKey
        | true =>
          simp only [if_true,lookup_remove] at foundKey
          split_ifs at foundKey
          exact sim.reserved other key mapped' foundKey
      case prose =>
        intro other key index' foundKey
        refine prose_modify index delta metadata (sim.prose other key index' ?_)
        cases ends with
        | false => exact foundKey
        | true =>
          simp only [if_true,lookup_remove] at foundKey
          split_ifs at foundKey
          exact foundKey
      case calls => exact sim.calls
      case queued => exact sim.queued
      case result_ids => exact sim.result_ids
      case client_outputs => exact sim.client_outputs
      case denied => exact sim.denied
    · rintro empty rfl rfl
      have idle : ∀ part, extend delta none part = part := by
        intro part
        cases part <;> simp [extend,empty]
      have unchanged : acc.content.modify index (extend delta none) = acc.content := by
        refine ext_getElem? fun place => ?_
        rw [getElem?_modify]
        cases acc.content[place]? <;> simp [idle]
      simp [unchanged]

theorem Simulates.push (sim : Simulates a acc s) (part : StepContent) :
    Simulates (a.push part) { acc with content := acc.content ++ [part] } (s.push part) where
  content := by simp [Assembly.push,sim.content]
  places := sim.places
  known := sim.known
  distinct := sim.distinct
  reserved := sim.reserved
  prose := fun kind id index found => prose_append [part] (sim.prose kind id index found)
  calls := sim.calls
  queued := sim.queued
  result_ids := sim.result_ids
  client_outputs := sim.client_outputs
  denied := sim.denied

theorem map_tool_call_error {error : Error}
    (failed : decision ctx inputs (parse_tool_call inputs.parse call) = .error error) :
    a.map_tool_call ctx inputs call = .error error := by
  have valid : (parse_tool_call inputs.parse call).invalid = false := by
    cases invalid : (parse_tool_call inputs.parse call).invalid with
    | false => rfl
    | true =>
      unfold GenerateText.decision resolve_call_approval at failed
      rw [if_pos invalid] at failed
      cases failed
  unfold GenerateText.decision at failed
  unfold Attempt.map_tool_call
  simp only [valid,failed]
  rfl

theorem map_tool_call_ok {approval : Option CallApproval}
    (decided : decision ctx inputs (parse_tool_call inputs.parse call) = .ok approval) :
    a.map_tool_call ctx inputs call = .ok ({ a with state := { a.state with
      tool_calls := a.state.tool_calls ++ [parse_tool_call inputs.parse call]
      content := a.state.content ++ [.ToolCall (parse_tool_call inputs.parse call)]
      queued := if ready ctx inputs (parse_tool_call inputs.parse call)
        then a.state.queued ++ [parse_tool_call inputs.parse call] else a.state.queued
      client_outputs := if fails (parse_tool_call inputs.parse call) then a.state.client_outputs + 1
        else a.state.client_outputs
      denied := if GenerateText.denied ctx inputs (parse_tool_call inputs.parse call) then a.state.denied + 1
        else a.state.denied } },
      .ToolCall (parse_tool_call inputs.parse call) ::
        (follow approval (parse_tool_call inputs.parse call)).filterMap content_event) := by
  unfold Attempt.map_tool_call
  dsimp only
  generalize parse_tool_call inputs.parse call = parsed at decided ⊢
  have known := approval_of_ok decided
  cases invalid : parsed.invalid with
  | true =>
    obtain rfl := known.symm.trans (approval_of_invalid invalid)
    cases hosted : parsed.provider_executed <;>
      simp [ready,fails,GenerateText.denied,known,follow,content_event,invalid,hosted] <;> rfl
  | false =>
    unfold GenerateText.decision at decided
    rw [decided]
    cases approval with
    | none =>
      cases hosted : parsed.provider_executed <;> cases ran : (executable ctx parsed).isSome <;>
        simp [ready,fails,GenerateText.denied,GenerateText.held,known,follow,invalid,hosted,ran,Bind.bind,Except.bind] <;> rfl
    | some approval =>
      cases answer : approval.response with
      | none =>
        cases hosted : parsed.provider_executed <;> cases ran : (executable ctx parsed).isSome <;>
          cases blocked : approval.blocked <;>
          simp [ready,fails,GenerateText.denied,GenerateText.held,known,follow,content_event,invalid,hosted,ran,blocked,answer,
            Bind.bind,Except.bind] <;> rfl
      | some response =>
        cases hosted : parsed.provider_executed <;> cases ran : (executable ctx parsed).isSome <;>
          cases blocked : approval.blocked <;> cases approved : response.approved <;>
          simp [ready,fails,GenerateText.denied,GenerateText.held,known,follow,content_event,invalid,hosted,ran,blocked,answer,
            approved,Bind.bind,Except.bind] <;> rfl

/-! ### Tool content -/

theorem content_event_handled {part : StepContent} {event : StreamEvent}
    (shows : content_event part = some event) : (inStep acc).handle ctx event =
      .ok (inStep { acc with content := acc.content ++ [part].filter (!isPreliminary ·) }) := by
  cases part <;> simp only [content_event,reduceCtorEq,some.injEq] at shows <;> subst shows
  case ToolResult result =>
    cases preliminary : result.preliminary <;> simp [handle,isPreliminary,preliminary,push_inStep]
  all_goals rfl

theorem process_contents (contents : List StepContent) : ∀ acc : StepAccumulator,
    (∀ part ∈ contents, (content_event part).isSome) →
    (inStep acc).process ctx (contents.filterMap content_event) =
      .ok (inStep { acc with content := acc.content ++ contents.filter (!isPreliminary ·) }) := by
  induction contents with
  | nil => intro acc shown; simp [process_nil]
  | cons part rest ih =>
    intro acc shown
    obtain ⟨_,shows⟩ := Option.isSome_iff_exists.mp (shown part mem_cons_self)
    rw [filterMap_cons,shows]
    dsimp only
    rw [process_cons,content_event_handled shows]
    show process ctx _ _ = _
    rw [ih _ fun other mem => shown other (mem_cons_of_mem part mem)]
    have split : (part :: rest).filter (!isPreliminary ·) =
        [part].filter (!isPreliminary ·) ++ rest.filter (!isPreliminary ·) := by
      rw [← filter_append]
      rfl
    simp [split]

theorem contents_inner {contents : List StepContent} {event : StreamEvent}
    (mem : event ∈ contents.filterMap content_event) : isInner event = true ∧ starts event = none := by
  obtain ⟨part,-,shows⟩ := List.mem_filterMap.mp mem
  cases part <;> simp only [content_event,reduceCtorEq,some.injEq] at shows <;> subst shows
  all_goals exact ⟨rfl,rfl⟩

theorem follow_shown (approval : Option CallApproval) (call : ParsedToolCall) :
    (∀ part ∈ follow approval call, (content_event part).isSome) ∧
      (follow approval call).filter (!isPreliminary ·) = follow approval call := by
  unfold follow
  cases approval with
  | none => cases fails call <;> simp [content_event,isPreliminary]
  | some approval =>
    cases answer : approval.response <;> cases fails call <;> simp [answer,content_event,isPreliminary]

theorem provider_tool_result_shown (tools : ToolSet) (calls : List ParsedToolCall) (result : ProviderToolResult) :
    (∃ event, content_event (provider_tool_result tools calls result) = some event ∧ is_tool_part event = true) ∧
      isPreliminary (provider_tool_result tools calls result) = (result.preliminary && !result.is_error) := by
  unfold provider_tool_result
  dsimp only
  split_ifs with failed
  · exact ⟨⟨_,rfl,rfl⟩,by simp [isPreliminary,failed]⟩
  · exact ⟨⟨_,rfl,rfl⟩,by simp [isPreliminary,failed]⟩

/-- The parts whose events are held back while a retry is possible. -/
def isToolPart : StreamPart → Bool
  | .ToolInputStart .. | .ToolInputDelta .. | .ToolInputEnd .. | .ToolCall _ | .ToolResult _
  | .ToolApprovalRequest .. => true
  | _ => false

structure Mapped (a a' : Attempt) (part : StreamPart) (events : List StreamEvent) : Prop where
  frame : Frame a a'
  inner : ∀ event ∈ events, isInner event = true
  tool : isToolPart part = true → ∃ event rest, events = event :: rest ∧ is_tool_part event = true
  plain : isToolPart part = false → ∀ event ∈ events, is_tool_part event = false
  ids : (events.filterMap starts = [] ∧ a'.used_ids = a.used_ids) ∨
    ∃ kind id, events.filterMap starts = [(kind,id)] ∧ id ∉ a.used_ids ∧ a'.used_ids = id :: a.used_ids

def PartSimulates (ctx : LoopContext) (inputs : StepInputs) (stream : StreamConfig) (a : Attempt)
    (acc : StepAccumulator) (s : Assembly) (part : StreamPart) : Prop :=
  (∃ error, a.map_part ctx inputs stream part = .error error ∧ s.step ctx inputs part = .error error) ∨
  ∃ a' events acc' s', a.map_part ctx inputs stream part = .ok (a',events) ∧ s.step ctx inputs part = .ok s' ∧
    (inStep acc).process ctx events = .ok (inStep acc') ∧ Simulates a' acc' s' ∧ Mapped a a' part events

theorem process_single {event : StreamEvent} (handled : (inStep acc).handle ctx event = .ok (inStep acc')) :
    (inStep acc).process ctx [event] = .ok (inStep acc') := by
  rw [process_cons,handled]
  rfl

theorem PartSimulates.pushed {c : StepContent} {e : StreamEvent} (sim : Simulates a acc s)
    (mapped : a.map_part ctx inputs stream part = .ok (a.push c,[e]))
    (stepped : s.step ctx inputs part = .ok (s.push c))
    (handled : (inStep acc).handle ctx e = .ok ((inStep acc).push_content c))
    (inner : isInner e = true) (opens : starts e = none) (kind : isToolPart part = is_tool_part e) :
    PartSimulates ctx inputs stream a acc s part := by
  refine .inr ⟨_,_,_,_,mapped,stepped,process_single (handled.trans (congrArg _ (push_inStep acc c))),
    sim.push c,⟨⟨rfl,rfl,rfl,rfl,rfl,rfl,rfl,rfl⟩,?_,?_,?_,?_⟩⟩
  · simpa using inner
  · intro isTool
    exact ⟨e,[],rfl,kind ▸ isTool⟩
  · intro isPlain
    simpa [← kind] using isPlain
  · exact .inl ⟨by simp [opens],rfl⟩

theorem PartSimulates.silent
    {events : List StreamEvent} (sim : Simulates a' acc s) (frame : Frame a a') (used : a'.used_ids = a.used_ids)
    (mapped : a.map_part ctx inputs stream part = .ok (a',events)) (stepped : s.step ctx inputs part = .ok s)
    (handled : ∀ event ∈ events, (inStep acc).handle ctx event = .ok (inStep acc) ∧ isInner event = true ∧
      starts event = none ∧ is_tool_part event = isToolPart part)
    (some_ : isToolPart part = true → events ≠ []) : PartSimulates ctx inputs stream a acc s part := by
  refine .inr ⟨_,_,_,_,mapped,stepped,?_,sim,⟨frame,fun event mem => (handled event mem).2.1,?_,?_,.inl ⟨?_,used⟩⟩⟩
  · clear mapped some_
    induction events with
    | nil => rfl
    | cons event _ ih =>
      rw [process_cons,(handled event mem_cons_self).1]
      exact ih fun other mem => handled other (mem_cons_of_mem event mem)
  · intro isTool
    cases events with
    | nil => exact absurd rfl (some_ isTool)
    | cons event rest => exact ⟨event,rest,rfl,(handled event mem_cons_self).2.2.2.trans isTool⟩
  · intro isPlain event mem
    exact (handled event mem).2.2.2.trans isPlain
  · exact List.filterMap_eq_nil_iff.mpr fun event mem => (handled event mem).2.2.1

theorem PartSimulates.started {e : PartId → StreamEvent} (sim : Simulates a acc s)
    (mapped : a.map_part ctx inputs stream part =
      .ok ((a.start_part kind id metadata).1,[e (a.start_part kind id metadata).2]))
    (stepped : s.step ctx inputs part = .ok (s.start_part kind id metadata))
    (handled : ∀ id, (inStep acc).handle ctx (e id) = (inStep acc).start_part kind id metadata)
    (isStart : ∀ id, isInner (e id) = true ∧ starts (e id) = some (kind,id) ∧ is_tool_part (e id) = false)
    (plain : isToolPart part = false) : PartSimulates ctx inputs stream a acc s part := by
  refine .inr ⟨_,_,_,_,mapped,stepped,process_single ((handled _).trans (start_inStep acc kind _ metadata)),
    sim.start kind id metadata,⟨⟨rfl,rfl,rfl,rfl,rfl,rfl,rfl,rfl⟩,?_,?_,?_,?_⟩⟩
  · simpa using (isStart _).1
  · intro isTool
    rw [plain] at isTool
    cases isTool
  · intro _
    simpa using (isStart _).2.2
  · have opens := (isStart (a.start_part kind id metadata).2).2.1
    exact .inr ⟨kind,_,by simp [opens]; rfl,reserve_part_id_fresh a.used_ids id,rfl⟩

theorem PartSimulates.updated {isEnd : Bool} {e : PartId → List StreamEvent} (sim : Simulates a acc s)
    (mapped : a.map_part ctx inputs stream part = (do
      let (a,mapped) ← a.update_part kind id delta metadata isEnd
      return (a,e mapped))) (stepped : s.step ctx inputs part = s.update_part kind id delta metadata isEnd)
    (handled : ∀ mapped, (∃ event, e mapped = [event] ∧ isInner event = true ∧ starts event = none ∧
      is_tool_part event = false ∧
      (inStep acc).handle ctx event = (inStep acc).update_part kind mapped delta metadata isEnd) ∨
      (e mapped = [] ∧ delta.getD "" = "" ∧ metadata = none ∧ isEnd = false))
    (plain : isToolPart part = false) : PartSimulates ctx inputs stream a acc s part := by
  rcases sim.update kind id delta metadata isEnd with
    ⟨error,failed,unknown⟩ | ⟨a',new,acc',s',changed,frame,used,shown,assembled,sim',idle⟩
  · exact .inl ⟨error,by rw [mapped,failed]; rfl,by rw [stepped,unknown]⟩
  · refine .inr ⟨a',e new,acc',s',by rw [mapped,changed]; rfl,by rw [stepped,assembled],?_,sim',⟨frame,?_,?_,?_,?_⟩⟩
    · rcases handled new with ⟨event,only,-,-,-,handles⟩ | ⟨none_,empty,bare,goesOn⟩
      · rw [only]
        exact process_single (handles.trans (update_inStep shown))
      · rw [none_,idle empty bare goesOn]
        rfl
    · rcases handled new with ⟨event,only,inner,-⟩ | ⟨none_,-⟩
      · simpa [only] using inner
      · simp [none_]
    · intro isTool
      rw [plain] at isTool
      cases isTool
    · intro _
      rcases handled new with ⟨event,only,-,-,isPlain,-⟩ | ⟨none_,-⟩
      · simpa [only] using isPlain
      · simp [none_]
    · refine .inl ⟨?_,used⟩
      rcases handled new with ⟨_,only,-,opens,-⟩ | ⟨none_,-⟩
      · simp [only,opens]
      · simp [none_]

theorem Simulates.changed {s' : Assembly} (sim : Simulates a acc s)
    {more : List StepContent} (used : a'.used_ids = a.used_ids) (open_ids : a'.state.open_ids = a.state.open_ids)
    (content : s'.content = s.content ++ more) (parts : s'.parts = s.parts)
    (calls : a'.state.tool_calls = s'.calls) (queued : a'.state.queued = s'.queued)
    (result_ids : a'.state.result_ids = s'.result_ids) (outputs : a'.state.client_outputs = s'.client_outputs)
    (denials : a'.state.denied = s'.denied) :
    Simulates a' { acc with content := acc.content ++ more } s' where
  content := by simp [content,sim.content]
  places := by rw [open_ids,parts]; exact sim.places
  known := by rw [open_ids]; exact sim.known
  distinct := by rw [open_ids]; exact sim.distinct
  reserved := by rw [open_ids,used]; exact sim.reserved
  prose := by
    rw [parts,content]
    exact fun kind id index found => prose_append more (sim.prose kind id index found)
  calls := calls
  queued := queued
  result_ids := result_ids
  client_outputs := outputs
  denied := denials

theorem map_part_simulates (sim : Simulates a acc s)
    (part : StreamPart) : PartSimulates ctx inputs stream a acc s part := by
  cases part with
  | TextStart _ metadata =>
    exact .started (e := (.TextStart · metadata)) sim rfl rfl (fun _ => rfl) (fun _ => ⟨rfl,rfl,rfl⟩) rfl
  | ReasoningStart _ metadata =>
    exact .started (e := (.ReasoningStart · metadata)) sim rfl rfl (fun _ => rfl) (fun _ => ⟨rfl,rfl,rfl⟩) rfl
  | TextDelta _ delta metadata =>
    refine .updated (e := fun mapped => if delta = "" ∧ metadata = none then [] else [.TextDelta mapped delta metadata])
      sim rfl rfl (fun mapped => ?_) rfl
    by_cases bare : delta = "" ∧ metadata = none
    · exact .inr ⟨if_pos bare,bare.1,bare.2,rfl⟩
    · exact .inl ⟨_,if_neg bare,rfl,rfl,rfl,rfl⟩
  | ReasoningDelta _ delta metadata =>
    refine .updated
      (e := fun mapped => if delta = "" ∧ metadata = none then [] else [.ReasoningDelta mapped delta metadata])
      sim rfl rfl (fun mapped => ?_) rfl
    by_cases bare : delta = "" ∧ metadata = none
    · exact .inr ⟨if_pos bare,bare.1,bare.2,rfl⟩
    · exact .inl ⟨_,if_neg bare,rfl,rfl,rfl,rfl⟩
  | TextEnd _ metadata =>
    exact .updated (e := fun mapped => [.TextEnd mapped metadata]) sim rfl rfl
      (fun mapped => .inl ⟨_,rfl,rfl,rfl,rfl,rfl⟩) rfl
  | ReasoningEnd _ metadata =>
    exact .updated (e := fun mapped => [.ReasoningEnd mapped metadata]) sim rfl rfl
      (fun mapped => .inl ⟨_,rfl,rfl,rfl,rfl,rfl⟩) rfl
  | ToolCall call =>
    cases decided : decision ctx inputs (parse_tool_call inputs.parse call) with
    | error error => exact .inl ⟨error,map_tool_call_error decided,by simp only [step,decided]; rfl⟩
    | ok approval =>
      obtain ⟨shown,final⟩ := follow_shown approval (parse_tool_call inputs.parse call)
      have collected := @process_contents ctx (follow approval (parse_tool_call inputs.parse call))
        { acc with content := acc.content ++ [.ToolCall (parse_tool_call inputs.parse call)] } shown
      rw [final,append_assoc,singleton_append] at collected
      refine .inr ⟨_,_,_,_,map_tool_call_ok decided,by simp only [step,decided]; rfl,
        (process_cons _ _ _).trans collected,?_,⟨⟨rfl,rfl,rfl,rfl,rfl,rfl,rfl,rfl⟩,?_,?_,by simp [isToolPart],.inl ⟨?_,rfl⟩⟩⟩
      · refine sim.changed rfl rfl rfl rfl ?_ ?_ sim.result_ids ?_ ?_
        · simp [add_call,sim.calls]
        · simp [add_call,sim.queued]
        · simp [add_call,sim.client_outputs]
        · simp [add_call,sim.denied]
      · intro event mem
        rcases List.mem_cons.mp mem with rfl | later
        · rfl
        · exact (contents_inner later).1
      · exact fun _ => ⟨_,_,rfl,rfl⟩
      · exact List.filterMap_eq_nil_iff.mpr fun event mem => by
          rcases List.mem_cons.mp mem with rfl | later
          · rfl
          · exact (contents_inner later).2
  | ToolResult result =>
    obtain ⟨⟨event,shows,isTool⟩,preliminary⟩ := provider_tool_result_shown ctx.execution_tools s.calls result
    have inner := @contents_inner [provider_tool_result ctx.execution_tools s.calls result] event (by simp [shows])
    have mapped : a.map_part ctx inputs stream (.ToolResult result) = .ok (Attempt.push { a with state := { a.state with
        result_ids := insert result.tool_call_id a.state.result_ids } }
          (provider_tool_result ctx.execution_tools s.calls result),[event]) := by
      simp only [Attempt.map_part,sim.calls,shows]
      rfl
    refine .inr ⟨_,[event],_,_,mapped,rfl,process_single (content_event_handled shows),?_,
      ⟨⟨rfl,rfl,rfl,rfl,rfl,rfl,rfl,rfl⟩,?_,?_,by simp [isToolPart],.inl ⟨?_,rfl⟩⟩⟩
    · refine sim.changed rfl rfl ?_ rfl sim.calls sim.queued ?_ sim.client_outputs sim.denied
      · cases isPart : result.preliminary && !result.is_error <;> simp [isPart,preliminary]
      · simp [Attempt.push,sim.result_ids]
    · simpa using inner.1
    · exact fun _ => ⟨event,[],rfl,isTool⟩
    · simp [inner.2]
  | ToolApprovalRequest approval_id tool_call_id metadata =>
    cases found : findCall s.calls tool_call_id with
    | none =>
      exact .inl ⟨.ToolCallNotFoundForApproval tool_call_id approval_id,
        by simp only [Attempt.map_part,sim.calls,found],by simp only [step,found]⟩
    | some call =>
      refine .pushed (c := .ToolApprovalRequest (provider_approval_request approval_id call metadata))
        (e := .ToolApprovalRequest (provider_approval_request approval_id call metadata)) sim ?_ ?_ rfl rfl rfl rfl
      · simp only [Attempt.map_part,sim.calls,found]
      · simp only [step,found]
  | File => exact .pushed sim rfl rfl rfl rfl rfl rfl
  | ReasoningFile => exact .pushed sim rfl rfl rfl rfl rfl rfl
  | Source => exact .pushed sim rfl rfl rfl rfl rfl rfl
  | Custom => exact .pushed sim rfl rfl rfl rfl rfl rfl
  | ToolInputStart =>
    exact .silent sim (.refl a) rfl rfl rfl (by simp [handle,isInner,starts,is_tool_part,isToolPart]) (by simp)
  | ToolInputDelta =>
    exact .silent sim (.refl a) rfl rfl rfl (by simp [handle,isInner,starts,is_tool_part,isToolPart]) (by simp)
  | ToolInputEnd =>
    exact .silent sim (.refl a) rfl rfl rfl (by simp [handle,isInner,starts,is_tool_part,isToolPart]) (by simp)
  | Raw =>
    refine .silent sim (.refl a) rfl rfl rfl ?_ (by simp [isToolPart])
    cases stream.include_raw_chunks <;> simp [handle,isInner,starts,is_tool_part,isToolPart]
  | ResponseMetadata =>
    refine .inr ⟨_,[],acc,s,rfl,rfl,rfl,?_,⟨⟨rfl,rfl,rfl,rfl,rfl,rfl,rfl,rfl⟩,by simp,by simp [isToolPart],by simp,
      .inl ⟨rfl,rfl⟩⟩⟩
    exact ⟨sim.content,sim.places,sim.known,sim.distinct,sim.reserved,sim.prose,sim.calls,sim.queued,sim.result_ids,
      sim.client_outputs,sim.denied⟩
  | StreamStart => exact .silent sim (.refl a) rfl rfl rfl (by simp) (by simp [isToolPart])
  | Finish => exact .silent sim (.refl a) rfl rfl rfl (by simp) (by simp [isToolPart])
  | Error => exact .silent sim (.refl a) rfl rfl rfl (by simp) (by simp [isToolPart])

end

end Ferrin.StreamText
