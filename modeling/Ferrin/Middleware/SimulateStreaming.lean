import Ferrin.StreamText.Accumulate
import Ferrin.StreamText.Agreement

/-!
Streaming simulated from a complete response. The parts that a response is
expanded into are read back by the streamed step: its model call accumulates
the content that was expanded, and its processor shows that content with what
the step adds to it.
-/
namespace Ferrin.SimulateStreaming
open GenerateText StreamText List Attempt Option Result StepContent
open Assembly (step)
open Attempt (emit)

/-- The result of a complete call, as far as its parts tell it. -/
structure GenerateResult where
  content : List Content
  finish_reason : FinishReason
  usage : Usage
  provider_metadata : Option ProviderMetadata
  response : StreamText.ResponseMetadata
  warnings : List Warning

def part_id (next_id : UInt32) : PartId := toString next_id.toNat

def content_parts (next_id : UInt32) : List Content → List StreamPart
  | [] => []
  | .Text text _ :: rest =>
    if text = "" then content_parts next_id rest
    else .TextStart (part_id next_id) none :: .TextDelta (part_id next_id) text none ::
      .TextEnd (part_id next_id) none :: content_parts (next_id + 1) rest
  | .Reasoning text provider_metadata :: rest =>
    .ReasoningStart (part_id next_id) provider_metadata :: .ReasoningDelta (part_id next_id) text none ::
      .ReasoningEnd (part_id next_id) none :: content_parts (next_id + 1) rest
  | .ReasoningFile data media_type provider_metadata :: rest =>
    .ReasoningFile data media_type provider_metadata :: content_parts next_id rest
  | .File data media_type filename provider_metadata :: rest =>
    .File data media_type filename provider_metadata :: content_parts next_id rest
  | .Custom kind provider_metadata :: rest => .Custom kind provider_metadata :: content_parts next_id rest
  | .Source source :: rest => .Source source :: content_parts next_id rest
  | .ToolCall call :: rest => .ToolCall call :: content_parts next_id rest
  | .ToolResult result :: rest => .ToolResult result :: content_parts next_id rest
  | .ToolApprovalRequest approval_id tool_call_id provider_metadata :: rest =>
    .ToolApprovalRequest approval_id tool_call_id provider_metadata :: content_parts next_id rest

def simulate_parts (result : GenerateResult) : List StreamPart :=
  [.StreamStart result.warnings,
    .ResponseMetadata result.response.id result.response.timestamp result.response.model_id] ++
  content_parts 0 result.content ++
  [.Finish result.finish_reason result.usage result.provider_metadata]

structure StreamResult where
  stream : List StreamPart
  response : StreamText.ResponseMetadata

/-- `wrap_stream`, given what `do_generate` of the wrapped model comes to. -/
def wrap_stream (generated : Except ProviderError GenerateResult) : Except ProviderError StreamResult := do
  let result ← generated
  return ⟨simulate_parts result,result.response⟩

/-! ### The reading of a streamed step -/

/-- The attempt after `call_model`. -/
def call_model (used_ids : List PartId) (result : StreamResult) : Attempt :=
  { Attempt.new used_ids with state := { AttemptState.new with response := result.response } }

def read_to_finish (ctx : LoopContext) (inputs : StepInputs) (stream : StreamConfig) (a : Attempt) :
    List StreamPart → Option (Attempt × FinishReason × Usage × Option ProviderMetadata)
  | [] => none
  | .StreamStart warnings :: rest =>
    read_to_finish ctx inputs stream { a with state := { a.state with warnings } } rest
  | part :: rest =>
    let a := if a.started_step then a else a.emit_start_step
    match part with
    | .Error _ => none
    | .Finish finish_reason usage provider_metadata => some (a,finish_reason,usage,provider_metadata)
    | other =>
      match a.map_part ctx inputs stream other with
      | .error _ => none
      | .ok (a,events) => read_to_finish ctx inputs stream (events.foldl (emit stream.retries_possible) a) rest

section
variable {ctx : LoopContext} {inputs : StepInputs} {stream : StreamConfig}

theorem read_to_finish_reads {finish_reason : FinishReason} {usage : Usage} {metadata : Option ProviderMetadata}
    {b : Attempt} (parts : List StreamPart) : ∀ {a : Attempt},
    read_to_finish ctx inputs stream a parts = some (b,finish_reason,usage,metadata) →
    a.read_attempt ctx inputs stream false parts =
      (b.flush_buffer,.Finished <$> b.flush_buffer.finish inputs finish_reason) := by
  induction parts with
  | nil => intro a done; cases done
  | cons part _ ih =>
    intro a done
    rw [Attempt.read_attempt.eq_def]
    cases part with
    | StreamStart => exact ih done
    | Error => cases done
    | Finish =>
      simp only [read_to_finish,some.injEq,Prod.mk.injEq] at done
      obtain ⟨rfl,rfl,-,-⟩ := done
      rfl
    | _ =>
      simp only [read_to_finish] at done
      simp only [Bool.false_eq_true,if_false]
      split at done
      · cases done
      · rename_i mapped
        simpa only [mapped] using ih done

end

def delivered : Content → List Content
  | .Text text _ => if text = "" then [] else [.Text text none]
  | part => [part]

inductive Expands : List StreamPart → List Content → Prop where
  | done : Expands [] []
  | said {parts : List StreamPart} {content : List Content} (kind : Kind) (id : PartId) (text : String)
      (metadata : Option ProviderMetadata) (rest : Expands parts content) :
      Expands (kind.startPart id metadata :: kind.deltaPart id text none :: kind.endPart id none :: parts)
        (kind.said text metadata :: content)
  | atom {part : StreamPart} {c : Content} {parts : List StreamPart} {content : List Content}
      (carries : atom part = some c) (rest : Expands parts content) : Expands (part :: parts) (c :: content)

theorem content_parts_expands (content : List Content) : ∀ next_id,
    Expands (content_parts next_id content) (content.flatMap delivered) := by
  induction content with
  | nil => exact fun _ => .done
  | cons part _ ih =>
    intro next_id
    rw [flatMap_cons]
    cases part with
    | Text text =>
      by_cases empty : text = ""
      · simpa only [content_parts,delivered,empty,if_true,nil_append] using ih next_id
      · simpa only [content_parts,delivered,empty,if_false] using .said .text _ text none (ih (next_id + 1))
    | Reasoning text metadata => exact .said .reasoning _ text metadata (ih (next_id + 1))
    | _ => exact .atom rfl (ih next_id)

theorem Expands.plain {parts : List StreamPart} {content : List Content} (expands : Expands parts content) :
    ∀ part ∈ parts, isControl part = false := by
  induction expands with
  | done => simp
  | said kind _ _ _ _ ih => cases kind <;> simpa [Kind.startPart,Kind.deltaPart,Kind.endPart,isControl] using ih
  | @atom part _ _ _ carries _ ih =>
    rw [forall_mem_cons]
    refine ⟨?_,ih⟩
    cases part <;> first | rfl | cases carries

theorem Expands.accumulated {parts : List StreamPart} {content : List Content} (expands : Expands parts content) :
    ∀ before, Accumulation.after ⟨before,.empty⟩ parts = .ok ⟨before ++ content,.empty⟩ := by
  induction expands with
  | done => intro before; rw [append_nil]; rfl
  | @said _ content kind id text metadata _ ih =>
    intro before
    rw [Accumulation.after,foldlM_step (Accumulation.opened_start before kind id metadata),
      foldlM_step (Accumulation.opened_delta kind text none),foldlM_step (Accumulation.opened_end kind none),
      String.empty_append,none_or,none_or,append_cons before _ content]
    exact ih _
  | @atom part c _ content carries _ ih =>
    intro before
    have pushed : Accumulation.step ⟨before,.empty⟩ part = .ok ⟨before ++ [c],.empty⟩ := by
      cases part <;> cases carries <;> rfl
    rw [Accumulation.after,foldlM_step pushed,append_cons before c content]
    exact ih _

theorem accumulate_simulate_parts (result : GenerateResult) :
    accumulate (simulate_parts result) = .ok (result.content.flatMap delivered) := by
  have body := (content_parts_expands result.content 0).accumulated []
  rw [accumulate,simulate_parts,Accumulation.after_append,Accumulation.after_append,
    Accumulation.after_silent (by simp [Accumulation.silent])]
  show (Accumulation.after ⟨[],.empty⟩ _ >>= _).map _ = _
  rw [body]
  rfl

/-- What the consumer of a step sees of its content: a call is followed by its approval or its error, and a preliminary
    result gives way to the final one. -/
def shown_parts (ctx : LoopContext) (inputs : StepInputs) : StepContent → List StepContent
  | .ToolCall call => .ToolCall call :: follow (approval_of ctx inputs call) call
  | .ToolResult result => if result.preliminary then [] else [.ToolResult result]
  | part => [part]

/-- The step accepts what the content asks of it: requests for approval refer to calls before them, and the approval of
    every call can be decided. -/
structure Accepted (ctx : LoopContext) (inputs : StepInputs) (calls : List ParsedToolCall) (content : List Content) :
    Prop where
  references : References inputs.parse calls content
  resolved : ∀ call ∈ parsedCalls inputs.parse content, ∃ approval, decision ctx inputs call = .ok approval

section
variable {ctx : LoopContext} {inputs : StepInputs} {stream : StreamConfig}

variable {c : Content} {rest : List Content}

theorem Accepted.head {calls : List ParsedToolCall} (accepted : Accepted ctx inputs calls (c :: rest)) :
    ∃ converted, convert_part inputs.parse ctx.execution_tools calls c = some converted ∧
      Accepted ctx inputs (calls ++ tool_calls [converted]) rest := by
  obtain ⟨references,resolved⟩ := accepted
  rw [parsedCalls_cons] at resolved
  have later : ∀ call ∈ parsedCalls inputs.parse rest, ∃ approval, decision ctx inputs call = .ok approval :=
    fun call mem => resolved call (mem_append_right _ mem)
  cases c with
  | ToolCall => exact ⟨_,rfl,references,later⟩
  | ToolResult result =>
    refine ⟨_,rfl,?_,later⟩
    have none_ : tool_calls [provider_tool_result ctx.execution_tools calls result] = [] := by
      unfold provider_tool_result
      dsimp only
      split_ifs <;> rfl
    rw [none_,append_nil]
    exact references
  | ToolApprovalRequest _ tool_call_id =>
    obtain ⟨⟨call,known,same⟩,references⟩ := references
    obtain ⟨found,isFound⟩ : ∃ found, findCall calls tool_call_id = some found :=
      Option.isSome_iff_exists.mp (List.find?_isSome.mpr ⟨call,known,by simpa using same⟩)
    refine ⟨_,by rw [convert_part,isFound]; rfl,?_,later⟩
    simpa [tool_calls,asToolCall] using references
  | _ => exact ⟨_,rfl,by simpa [tool_calls,asToolCall,References] using references,later⟩

theorem convert_from_head {calls : List ParsedToolCall} {converted : StepContent}
    (head : convert_part inputs.parse ctx.execution_tools calls c = some converted) :
    convert_from inputs.parse ctx.execution_tools calls (c :: rest) =
      converted :: convert_from inputs.parse ctx.execution_tools (calls ++ tool_calls [converted]) rest := by
  rw [convert_from,head]
  rfl

def stepSaid (kind : Kind) (text : String) (metadata : Option ProviderMetadata) : StepContent :=
  match kind with
  | .text => .Text text metadata
  | .reasoning => .Reasoning text metadata

theorem convert_said (calls : List ParsedToolCall) (kind : Kind) (text : String) (metadata : Option ProviderMetadata) :
    convert_part inputs.parse ctx.execution_tools calls (kind.said text metadata) = some (stepSaid kind text metadata) ∧
      tool_calls [stepSaid kind text metadata] = [] := by
  cases kind <;> exact ⟨rfl,rfl⟩

theorem extend_start (kind : Kind) (text : String) (metadata : Option ProviderMetadata) :
    extend (some text) none (kind.start metadata) = stepSaid kind text metadata := by
  cases kind <;> simp [extend,Kind.start,stepSaid]

theorem extend_end (kind : Kind) (text : String) (metadata : Option ProviderMetadata) :
    extend none none (stepSaid kind text metadata) = stepSaid kind text metadata := by
  cases kind <;> simp [extend,stepSaid]

theorem modify_last {α : Type} (before : List α) (a : α) (f : α → α) :
    (before ++ [a]).modify before.length f = before ++ [f a] := by
  induction before with
  | nil => rfl
  | cons _ _ ih => rw [cons_append,length_cons,modify_succ_cons,ih,cons_append]

theorem assembly_said {s : Assembly} (closed : s.parts = .empty) (kind : Kind) (id : PartId) (text : String)
    (metadata : Option ProviderMetadata) (parts : List StreamPart) :
    (kind.startPart id metadata :: kind.deltaPart id text none :: kind.endPart id none :: parts).foldlM
        (step ctx inputs) s =
      parts.foldlM (step ctx inputs) { s with content := s.content ++ [stepSaid kind text metadata] } := by
  have starts : s.step ctx inputs (kind.startPart id metadata) = .ok (s.start_part kind id metadata) := by
    cases kind <;> rfl
  have goes : ∀ t : Assembly, t.step ctx inputs (kind.deltaPart id text none) = t.update_part kind id (some text) none false := by
    intro t
    cases kind <;> rfl
  have ends : ∀ t : Assembly, t.step ctx inputs (kind.endPart id none) = t.update_part kind id none none true := by
    intro t
    cases kind <;> rfl
  have here : (s.parts.put kind id s.content.length).lookup kind id = some s.content.length := by
    rw [Open.lookup_put,if_pos ⟨rfl,rfl⟩]
  rw [foldlM_step starts,foldlM_step ((goes _).trans (Assembly.update_part_some here)),
    foldlM_step ((ends _).trans (Assembly.update_part_some here))]
  simp only [Assembly.start_part,if_true,modify_last,extend_start,extend_end,closed,StreamText.remove_put,
    Bool.false_eq_true,if_false]

theorem Expands.assembled {parts : List StreamPart} {content : List Content} (expands : Expands parts content) :
    ∀ {s : Assembly}, s.parts = .empty → Accepted ctx inputs s.calls content →
    ∃ t, parts.foldlM (step ctx inputs) s = .ok t ∧ t.content = s.content ++
      (convert_from inputs.parse ctx.execution_tools s.calls content).flatMap (shown_parts ctx inputs) := by
  induction expands with
  | done => intro s _ _; exact ⟨s,rfl,by simp [convert_from]⟩
  | @said _ content kind id text metadata _ ih =>
    intro s closed accepted
    obtain ⟨converts,no_call⟩ := @convert_said ctx inputs s.calls kind text metadata
    obtain ⟨converted,head,accepted⟩ := accepted.head
    cases head.symm.trans converts
    rw [no_call,append_nil] at accepted
    obtain ⟨t,done,shows⟩ := @ih { s with content := s.content ++ [stepSaid kind text metadata] } closed accepted
    refine ⟨t,(assembly_said closed kind id text metadata _).trans done,?_⟩
    rw [shows,convert_from_head converts,no_call,append_nil,flatMap_cons,append_assoc]
    cases kind <;> rfl
  | @atom part c _ content carries _ ih =>
    intro s closed accepted
    obtain ⟨converted,head,later⟩ := accepted.head
    have stepped : ∃ t, s.step ctx inputs part = .ok t ∧ t.parts = .empty ∧ t.calls = s.calls ++ tool_calls [converted] ∧
        t.content = s.content ++ shown_parts ctx inputs converted := by
      cases part <;> simp only [StreamText.atom,reduceCtorEq,some.injEq] at carries <;> subst carries
      case ToolCall call =>
        cases head
        obtain ⟨approval,decided⟩ := accepted.resolved (parse_tool_call inputs.parse call) (by simp [parsedCalls])
        refine ⟨s.add_call ctx inputs (parse_tool_call inputs.parse call) approval,?_,closed,rfl,?_⟩
        · simp only [step,decided]
          rfl
        · simp only [Assembly.add_call,shown_parts,approval_of,decided]
      case ToolResult result =>
        cases head
        refine ⟨_,rfl,closed,?_,?_⟩
        · unfold provider_tool_result
          dsimp only
          split_ifs <;> simp [tool_calls,asToolCall]
        · unfold provider_tool_result
          dsimp only
          cases result.is_error <;> cases result.preliminary <;> simp [shown_parts]
      case ToolApprovalRequest approval_id tool_call_id metadata =>
        cases found : findCall s.calls tool_call_id with
        | none => simp [convert_part,found] at head
        | some =>
          simp only [convert_part,found,map_some,some.injEq] at head
          subst head
          refine ⟨s.push _,?_,closed,by simp [Assembly.push,tool_calls,asToolCall],rfl⟩
          simp only [step,found]
      all_goals
        cases head
        exact ⟨_,rfl,closed,by simp [Assembly.push,tool_calls,asToolCall],rfl⟩
    obtain ⟨t,step,closed',calls,added⟩ := stepped
    obtain ⟨u,done,shows⟩ := @ih t closed' (calls ▸ later)
    refine ⟨u,(foldlM_step step).trans done,?_⟩
    rw [shows,added,calls,convert_from_head head,flatMap_cons,append_assoc]

/-! ### The model call -/

theorem emit_frame (possible : Bool) (events : List StreamEvent) : ∀ a : Attempt, ∃ texts reasonings buffer,
    (events.foldl (emit possible) a).state =
        { a.state with open_text := texts,open_reasoning := reasonings,buffer := buffer } ∧
      (events.foldl (emit possible) a).started_step = a.started_step := by
  induction events with
  | nil => intro a; exact ⟨_,_,_,rfl,rfl⟩
  | cons event _ ih =>
    intro a
    obtain ⟨texts,reasonings,buffer,state,started⟩ := ih (a.emit possible event)
    rw [foldl_cons,state,started]
    unfold emit
    split_ifs
    · exact ⟨texts,reasonings,buffer,rfl,rfl⟩
    · cases event <;> exact ⟨texts,reasonings,buffer,rfl,rfl⟩

structure Holds (a b : Attempt) (content : List StepContent) (calls : List ParsedToolCall) : Prop where
  started : b.started_step = true
  content : b.state.content = content
  closed : b.state.open_ids = .empty
  calls : b.state.tool_calls = calls
  warnings : b.state.warnings = a.state.warnings
  response : b.state.response = a.state.response

structure Within (a b : Attempt) (before : List StepContent) (calls : List ParsedToolCall) (kind : Kind) (id mapped : PartId)
    (part : StepContent) : Prop where
  started : b.started_step = true
  content : b.state.content = before ++ [part]
  opened : b.state.open_ids = Open.empty.put kind id mapped
  place : b.state.part_index.lookup mapped = some before.length
  calls : b.state.tool_calls = calls
  warnings : b.state.warnings = a.state.warnings
  response : b.state.response = a.state.response

theorem read_to_finish_part {a a' : Attempt} {part : StreamPart} {rest : List StreamPart} {events : List StreamEvent}
    (started : a.started_step = true) (plain : isControl part = false)
    (mapped : a.map_part ctx inputs stream part = .ok (a',events)) :
    read_to_finish ctx inputs stream a (part :: rest) =
      read_to_finish ctx inputs stream (events.foldl (emit stream.retries_possible) a') rest := by
  cases part with
  | StreamStart | Error | Finish => cases plain
  | _ =>
    rw [read_to_finish] <;> simp [started,mapped]

section
variable {a b : Attempt} {before : List StepContent} {calls : List ParsedToolCall} {kind : Kind} {id mapped : PartId}
  {part : StepContent}

theorem Holds.emit (holds : Holds a b before calls) (possible : Bool) (events : List StreamEvent) :
    Holds a (events.foldl (emit possible) b) before calls := by
  obtain ⟨_,_,_,state,started⟩ := emit_frame possible events b
  refine ⟨started.trans holds.started,?_,?_,?_,?_,?_⟩ <;> rw [state]
  · exact holds.content
  · exact holds.closed
  · exact holds.calls
  · exact holds.warnings
  · exact holds.response

theorem Within.emit (within : Within a b before calls kind id mapped part) (possible : Bool) (events : List StreamEvent) :
    Within a (events.foldl (emit possible) b) before calls kind id mapped part := by
  obtain ⟨_,_,_,state,started⟩ := emit_frame possible events b
  refine ⟨started.trans within.started,?_,?_,?_,?_,?_,?_⟩ <;> rw [state]
  · exact within.content
  · exact within.opened
  · exact within.place
  · exact within.calls
  · exact within.warnings
  · exact within.response

theorem Holds.start (holds : Holds a b before calls) (kind : Kind) (id : PartId) (metadata : Option ProviderMetadata) :
    Within a (b.start_part kind id metadata).1 before calls kind id (reserve_part_id b.used_ids id) (kind.start metadata) where
  started := holds.started
  content := congrArg (· ++ [kind.start metadata]) holds.content
  opened := congrArg (·.put kind id (reserve_part_id b.used_ids id)) holds.closed
  place := by rw [start_part,Assoc.lookup_put,if_pos rfl,holds.content]
  calls := holds.calls
  warnings := holds.warnings
  response := holds.response

theorem Within.goesOn (within : Within a b before calls kind id mapped part) (delta : String) :
    ∃ c, b.update_part kind id (some delta) none false = .ok (c,mapped) ∧
      Within a c before calls kind id mapped (extend (some delta) none part) := by
  have here : b.state.open_ids.lookup kind id = some mapped := by
    rw [within.opened,Open.lookup_put,if_pos ⟨rfl,rfl⟩]
  refine ⟨_,by simp only [update_part,here,within.place,within.content,modify_last]; rfl,?_⟩
  exact ⟨within.started,rfl,within.opened,within.place,within.calls,within.warnings,within.response⟩

theorem Within.ends (within : Within a b before calls kind id mapped part) :
    ∃ c, b.update_part kind id none none true = .ok (c,mapped) ∧ Holds a c (before ++ [extend none none part]) calls := by
  have here : b.state.open_ids.lookup kind id = some mapped := by
    rw [within.opened,Open.lookup_put,if_pos ⟨rfl,rfl⟩]
  have closes : b.state.open_ids.remove kind id = .empty := by
    rw [within.opened]
    cases kind <;> simp [Open.put,Open.remove,Open.set,Open.ids,Open.empty,Assoc.put,Assoc.remove]
  refine ⟨_,by simp only [update_part,here,within.place,within.content,modify_last]; rfl,?_⟩
  exact ⟨within.started,rfl,closes,within.calls,within.warnings,within.response⟩

end

theorem Holds.said {a b : Attempt} {content : List StepContent} {calls : List ParsedToolCall} (holds : Holds a b content calls)
    (kind : Kind) (id : PartId) (text : String) (metadata : Option ProviderMetadata) (rest : List StreamPart) :
    ∃ c, Holds a c (content ++ [stepSaid kind text metadata]) calls ∧
      read_to_finish ctx inputs stream b
          (kind.startPart id metadata :: kind.deltaPart id text none :: kind.endPart id none :: rest) =
        read_to_finish ctx inputs stream c rest := by
  have plain : isControl (kind.startPart id metadata) = false ∧ isControl (kind.deltaPart id text none) = false ∧
      isControl (kind.endPart id none) = false := by
    cases kind <;> exact ⟨rfl,rfl,rfl⟩
  have goes : ∀ {c c' : Attempt} {mapped : PartId}, c.update_part kind id (some text) none false = .ok (c',mapped) →
      ∃ events, c.map_part ctx inputs stream (kind.deltaPart id text none) = .ok (c',events) := by
    intro c c' mapped updated
    cases kind <;> exact ⟨_,by simp only [Kind.deltaPart,map_part,updated]; rfl⟩
  have ends : ∀ {c c' : Attempt} {mapped : PartId}, c.update_part kind id none none true = .ok (c',mapped) →
      ∃ events, c.map_part ctx inputs stream (kind.endPart id none) = .ok (c',events) := by
    intro c c' mapped updated
    cases kind <;> exact ⟨_,by simp only [Kind.endPart,map_part,updated]; rfl⟩
  obtain ⟨events,first⟩ : ∃ events, b.map_part ctx inputs stream (kind.startPart id metadata) =
      .ok ((b.start_part kind id metadata).1,events) := by
    cases kind <;> exact ⟨_,rfl⟩
  have opened := (holds.start kind id metadata).emit stream.retries_possible events
  rw [read_to_finish_part holds.started plain.1 first]
  obtain ⟨c,updated,within⟩ := opened.goesOn text
  obtain ⟨events,second⟩ := goes updated
  rw [read_to_finish_part opened.started plain.2.1 second]
  have told := within.emit stream.retries_possible events
  obtain ⟨d,updated,closed⟩ := told.ends
  obtain ⟨events,third⟩ := ends updated
  rw [read_to_finish_part told.started plain.2.2 third]
  rw [extend_start,extend_end] at closed
  exact ⟨_,closed.emit stream.retries_possible events,rfl⟩

theorem Expands.read {parts : List StreamPart} {content : List Content} (expands : Expands parts content)
    (rest : List StreamPart) {a : Attempt} : ∀ {b : Attempt} {before : List StepContent} {calls : List ParsedToolCall},
    Holds a b before calls → Accepted ctx inputs calls content →
    ∃ c known, Holds a c (before ++ convert_from inputs.parse ctx.execution_tools calls content) known ∧
      read_to_finish ctx inputs stream b (parts ++ rest) = read_to_finish ctx inputs stream c rest := by
  induction expands with
  | done =>
    intro b before calls holds _
    exact ⟨b,calls,by simpa [convert_from] using holds,rfl⟩
  | @said _ content kind id text metadata _ ih =>
    intro b before calls holds accepted
    obtain ⟨converts,no_call⟩ := @convert_said ctx inputs calls kind text metadata
    obtain ⟨converted,head,accepted⟩ := accepted.head
    cases head.symm.trans converts
    rw [no_call,append_nil] at accepted
    obtain ⟨c,told,reads⟩ := @Holds.said ctx inputs stream a b before calls holds kind id text metadata (_ ++ rest)
    obtain ⟨d,known,done,later⟩ := ih told accepted
    refine ⟨d,known,?_,reads.trans later⟩
    rw [convert_from_head converts,no_call,append_nil,append_cons]
    exact done
  | @atom part c _ content carries _ ih =>
    intro b before calls holds accepted
    obtain ⟨converted,head,later⟩ := accepted.head
    have mapped : ∃ b' events, b.map_part ctx inputs stream part = .ok (b',events) ∧
        Holds a b' (before ++ [converted]) (calls ++ tool_calls [converted]) := by
      obtain ⟨started,rfl,closed,rfl,warnings,response⟩ := holds
      cases part <;> simp only [StreamText.atom,reduceCtorEq,some.injEq] at carries <;> subst carries
      case ToolCall call =>
        cases head
        obtain ⟨_,decided⟩ := accepted.resolved (parse_tool_call inputs.parse call) (by simp [parsedCalls])
        exact ⟨_,_,map_tool_call_ok decided,started,rfl,closed,rfl,warnings,response⟩
      case ToolResult result =>
        cases head
        refine ⟨_,_,rfl,started,rfl,closed,?_,warnings,response⟩
        unfold provider_tool_result
        dsimp only
        split_ifs <;> simp [push,tool_calls,asToolCall]
      case ToolApprovalRequest approval_id tool_call_id metadata =>
        cases found : findCall b.state.tool_calls tool_call_id with
        | none => simp [convert_part,found] at head
        | some call =>
          simp only [convert_part,found,map_some,some.injEq] at head
          subst head
          refine ⟨b.push (.ToolApprovalRequest (provider_approval_request approval_id call metadata)),_,
            by simp only [map_part,found]; rfl,started,rfl,closed,?_,warnings,response⟩
          simp [push,tool_calls,asToolCall]
      all_goals
        cases head
        exact ⟨_,_,rfl,started,rfl,closed,by simp [push,tool_calls,asToolCall],warnings,response⟩
    obtain ⟨_,events,done,holds'⟩ := mapped
    have plain : isControl part = false := by
      cases part <;> first | rfl | cases carries
    obtain ⟨d,known,final,reads⟩ := ih (holds'.emit stream.retries_possible events) later
    refine ⟨d,known,?_,(read_to_finish_part holds.started plain done).trans reads⟩
    rw [convert_from_head head,append_cons]
    exact final

end

structure Reports (ctx : LoopContext) (inputs : StepInputs) (stream : StreamConfig) (used_ids : List PartId)
    (result : GenerateResult) (content : List StepContent) (b : Attempt) (p : Processor) : Prop where
  reads : read_to_finish ctx inputs stream (call_model used_ids ⟨simulate_parts result,result.response⟩)
    (simulate_parts result) = some (b,result.finish_reason,result.usage,result.provider_metadata)
  accumulates : b.state.content = content
  warnings : b.state.warnings = result.warnings
  response : b.state.response = result.response
  processed : Processor.new.process ctx b.flush_buffer.sent = .ok p
  shows_ : p.step_content = content.flatMap (shown_parts ctx inputs)
  begun : [StreamEvent.StartStep result.warnings] <+: b.flush_buffer.sent

section
variable {ctx : LoopContext} {inputs : StepInputs} {stream : StreamConfig}

theorem parsedCalls_delivered (parse : ParseContext) (content : List Content) :
    parsedCalls parse (content.flatMap delivered) = parsedCalls parse content := by
  induction content with
  | nil => rfl
  | cons c rest ih =>
    rw [flatMap_cons,parsedCalls,filterMap_append,parsedCalls_cons parse c rest,← ih]
    congr 1
    cases c with
    | Text text => by_cases empty : text = "" <;> simp [delivered,empty,parsedCalls]
    | _ => rfl

theorem Accepted.delivered {calls : List ParsedToolCall} {content : List Content}
    (accepted : Accepted ctx inputs calls content) :
    Accepted ctx inputs calls (content.flatMap SimulateStreaming.delivered) := by
  obtain ⟨references,resolved⟩ := accepted
  refine ⟨?_,(parsedCalls_delivered inputs.parse content).symm ▸ resolved⟩
  clear resolved
  induction content generalizing calls with
  | nil => exact references
  | cons c _ ih =>
    rw [flatMap_cons]
    cases c with
    | Text text =>
      by_cases empty : text = ""
      · rw [SimulateStreaming.delivered,if_pos empty]
        exact ih references
      · rw [SimulateStreaming.delivered,if_neg empty]
        exact ih references
    | ToolApprovalRequest => exact ⟨references.1,ih references.2⟩
    | _ => exact ih references

theorem simulated_reports (result : GenerateResult) (used_ids : List PartId)
    (accepted : Accepted ctx inputs [] result.content) :
    ∃ b p, Reports ctx inputs stream used_ids result
      (convert_from inputs.parse ctx.execution_tools [] (result.content.flatMap delivered)) b p := by
  let start := call_model used_ids ⟨simulate_parts result,result.response⟩
  let a : Attempt := { start with state := { start.state with warnings := result.warnings } }
  -- The step starts with the response metadata.
  let ready : Attempt := { a.emit_start_step with state := { a.emit_start_step.state with response :=
    ⟨result.response.id.or result.response.id,result.response.timestamp.or result.response.timestamp,
      result.response.model_id.or result.response.model_id⟩ } }
  have expands := content_parts_expands result.content 0
  have holds : Holds ready ready [] [] := ⟨rfl,rfl,rfl,rfl,rfl,rfl⟩
  obtain ⟨b,known,final,reads⟩ := @Expands.read ctx inputs stream _ _ expands
    [.Finish result.finish_reason result.usage result.provider_metadata] ready ready [] [] holds accepted.delivered
  have finish : read_to_finish ctx inputs stream b [.Finish result.finish_reason result.usage result.provider_metadata] =
      some (b,result.finish_reason,result.usage,result.provider_metadata) := by
    simp [read_to_finish,final.started]
  have toFinish := reads.trans finish
  have live : Live ctx stream.retries_possible ready .start (.new result.warnings) (.new result.warnings) := by
    have idle : Idle { new used_ids with state := { AttemptState.new with warnings := result.warnings } } :=
      ⟨rfl,rfl,rfl⟩
    have live := @Idle.live ctx _ stream.retries_possible idle
    exact ⟨live.shows.congr rfl rfl rfl,⟨live.fresh.1,live.fresh.2⟩,live.held,live.inner,
      ⟨live.sim.content,live.sim.places,live.sim.known,live.sim.distinct,live.sim.reserved,live.sim.prose,
        live.sim.calls,live.sim.queued,live.sim.result_ids,live.sim.client_outputs,live.sim.denied⟩,
      live.content,live.holding,live.possible,rfl⟩
  obtain ⟨t,assembled,shows⟩ := @Expands.assembled ctx inputs _ _ expands .start rfl accepted.delivered
  have view := (@View.read_body ctx inputs stream.retries_possible (ready.retries stream) result.finish_reason result.usage
    result.provider_metadata _ expands.plain .start).1 t assembled
  have settled := @read_attempt_live ctx inputs stream
    (content_parts 0 result.content ++ [.Finish result.finish_reason result.usage result.provider_metadata]) _ _ _ _ live
  rw [view,read_to_finish_reads _ toFinish] at settled
  obtain ⟨grows,-,p,processed,shown⟩ := settled.shown (by
    cases b.flush_buffer.finish inputs result.finish_reason <;> simp [Functor.map,Except.map])
  have response : ready.state.response = result.response := by
    show (⟨_,_,_⟩ : StreamText.ResponseMetadata) = _
    rw [Option.or_self,Option.or_self,Option.or_self]
  exact ⟨b,p,toFinish,final.content,final.warnings,final.response.trans response,processed,shown.trans shows,grows.1⟩

end

/-! ### Nothing is lost -/

def spoken_content (content : List Content) : List Content :=
  content.filter fun
    | .Text text _ => text ≠ ""
    | _ => true

/-- The parts of a result add up to its content without the empty texts, and every step that accepts the content reports
    that content and the rest of the result. -/
structure Lossless (result : GenerateResult) : Prop where
  accumulated : accumulate (simulate_parts result) = .ok (spoken_content result.content)
  step : ∀ (ctx : LoopContext) (inputs : StepInputs) (stream : StreamConfig) (used_ids : List PartId),
    Accepted ctx inputs [] result.content → ∃ b p, Reports ctx inputs stream used_ids result
      (convert_from inputs.parse ctx.execution_tools [] (spoken_content result.content)) b p

theorem delivered_spoken_iff (content : List Content) : content.flatMap delivered = spoken_content content ↔
    ∀ text metadata, .Text text metadata ∈ content → text ≠ "" → metadata = none := by
  induction content with
  | nil => simp [spoken_content]
  | cons c _ ih =>
    rw [flatMap_cons]
    cases c with
    | Text text metadata =>
      by_cases empty : text = ""
      · rw [delivered,if_pos empty,nil_append,spoken_content,filter_cons_of_neg (by simpa using empty)]
        refine ih.trans ⟨fun bare other metadata' mem some_ => ?_,fun bare other metadata' mem =>
          bare other metadata' (mem_cons_of_mem _ mem)⟩
        rcases List.mem_cons.mp mem with same | later
        · cases same
          exact absurd empty some_
        · exact bare other metadata' later some_
      · rw [delivered,if_neg empty,singleton_append,spoken_content,filter_cons_of_pos (by simpa using empty),
          List.cons.injEq,Content.Text.injEq]
        constructor
        · rintro ⟨⟨-,bare⟩,later⟩ other metadata' mem some_
          rcases List.mem_cons.mp mem with same | mem
          · cases same
            exact bare.symm
          · exact ih.mp later other metadata' mem some_
        · intro bare
          exact ⟨⟨rfl,(bare text metadata mem_cons_self empty).symm⟩,ih.mpr fun other metadata' mem =>
            bare other metadata' (mem_cons_of_mem _ mem)⟩
    | _ => simpa [delivered,spoken_content] using ih

end Ferrin.SimulateStreaming
