import Ferrin.Middleware.ToolContract
import Ferrin.StreamText.Retries

/-!
The tool restrictions of middleware are enforced: the client runs a tool for a
call of an attempt only if no options value that the attempt observed before the
call was parsed leaves the tool out.
-/
namespace Ferrin.Middleware
open Ferrin.GenerateText Ferrin.StreamText Ferrin.Library List Middleware Settings
open Result (bind_ok)

/-! ### What a contract stands for -/

section
variable (options : CallOptions) (observed : List CallOptions)

def Permitted (name : ToolName) : Prop := ∀ o ∈ options :: observed, name ∈ o.names

instance (name : ToolName) : Decidable (Permitted options observed name) :=
  inferInstanceAs (Decidable (∀ o ∈ options :: observed, name ∈ o.names))

def last_choice : Option ToolChoice := ((options :: observed).getLast (List.cons_ne_nil _ _)).tool_choice

def effective_choice : Option ToolChoice :=
  match last_choice options observed with
  | some (.Tool tool_name) => if Permitted options observed tool_name then some (.Tool tool_name) else none
  | some .Required => if ∃ name ∈ options.names, Permitted options observed name then some .Required else none
  | choice => choice

def restricted (original : ToolSet) (inputs : StepInputs) : StepInputs :=
  { inputs with parse := { inputs.parse with
    tools := original.filter fun (name,_) => Permitted options observed name
    tool_choice := effective_choice options observed } }

def contract_after : Settings := observed.foldl Settings.observe (.new options)

end

section
variable {options : CallOptions} {observed : List CallOptions}

variable {name : ToolName}

theorem permitted_append {later : List CallOptions} :
    Permitted options (observed ++ later) name ↔ Permitted options observed name ∧ ∀ o ∈ later, name ∈ o.names := by
  simp only [Permitted,mem_cons,mem_append]
  constructor
  · exact fun all => ⟨fun o mem => all o (mem.imp_right .inl),fun o mem => all o (.inr (.inr mem))⟩
  · rintro ⟨earlier,later⟩ o (same | before | after)
    · exact earlier o (.inl same)
    · exact earlier o (.inr before)
    · exact later o after

theorem contract_after_append (later : List CallOptions) :
    contract_after options (observed ++ later) = later.foldl Settings.observe (contract_after options observed) :=
  foldl_append

theorem observe_names {settings : Settings} {o : CallOptions} :
    name ∈ (settings.observe o).names ↔ name ∈ settings.names ∧ name ∈ o.names := by
  simp [observe,CallOptions.names,any_eq_true]

theorem contract_after_names : name ∈ (contract_after options observed).names ↔ Permitted options observed name := by
  induction observed using reverseRecOn with
  | nil => simp [contract_after,new,Permitted]
  | append_singleton _ _ ih =>
    rw [contract_after_append,permitted_append,← ih]
    simp [observe_names]

theorem contract_after_choice : (contract_after options observed).choice = last_choice options observed := by
  cases observed using reverseRecOn with
  | nil => rfl
  | append_singleton => simp [contract_after_append,observe,last_choice]

theorem contract_after_sublist : (contract_after options observed).names.Sublist options.names := by
  induction observed using reverseRecOn with
  | nil => exact List.Sublist.refl _
  | append_singleton _ _ ih =>
    rw [contract_after_append]
    exact List.filter_sublist.trans ih

theorem refresh_tools_eq (inputs : StepInputs) (original : ToolSet) :
    refresh_tools inputs (contract_after options observed) original = restricted options observed original inputs := by
  have left : (contract_after options observed).names = [] ↔ ¬ ∃ name ∈ options.names, Permitted options observed name := by
    rw [eq_nil_iff_forall_not_mem]
    constructor
    · rintro none_ ⟨name,-,permitted⟩
      exact none_ name (contract_after_names.mpr permitted)
    · exact fun none_ name mem =>
        none_ ⟨name,contract_after_sublist.subset mem,contract_after_names.mp mem⟩
  have choice : ((contract_after options observed).apply original).2 = effective_choice options observed := by
    unfold apply effective_choice
    rw [contract_after_choice]
    dsimp only
    cases last_choice options observed with
    | none => rfl
    | some choice =>
      cases choice with
      | Tool => simp only [contract_after_names]
      | Required =>
        simp only [left]
        split_ifs <;> rfl
      | Auto | None => rfl
  unfold refresh_tools restricted
  dsimp only
  rw [choice]
  simp only [apply,filter_active,contract_after_names]

theorem refresh_tools_again (inputs : StepInputs) (first second : Settings) (original : ToolSet) :
    refresh_tools (refresh_tools inputs first original) second original = refresh_tools inputs second original := rfl

end

section
variable {σ τ ω : Type} {observe : σ → CallOptions → σ} {observe' : τ → CallOptions → τ} {f : σ → τ}

theorem call_related (same : ∀ s o, observe' (f s) o = f (observe s o))
    (model : (kind : CallKind) → CallOptions → ω → ω × Outcome kind) (layers : List (LanguageModelMiddleware ω)) :
    ∀ kind options, Program.Related f (call observe model layers kind options) (call observe' model layers kind options) := by
  induction layers with
  | nil => exact fun kind options s w => rfl
  | cons layer layers ih =>
    intro kind options s w
    have transformed := Program.run_related (fun call : ModelCall => ih call.kind call.options)
      (layer.transform_params options kind) s w
    have answered (call : WrapCall) :
        Program.Related f (answer observe (Middleware.call observe model layers) kind call)
          (answer observe' (Middleware.call observe' model layers) kind call) := by
      cases call with
      | next passed =>
        intro s w
        rw [answer,same]
        exact ih kind passed _ w
      | model call => exact ih call.kind call.options
    simp only [call,wrapped,transformed]
    cases outcome : ((layer.transform_params options kind).run
      (fun call : ModelCall => Middleware.call observe model layers call.kind call.options) s w) with
    | mk s' rest =>
      obtain ⟨_,result⟩ := rest
      cases result with
      | error => rfl
      | ok passed =>
        dsimp only
        rw [same]
        exact Program.run_related answered (layer.wrap kind passed) _ _

variable {wrapped : WrappedLanguageModel ω} {max_retries : Nat} {kind : CallKind} {options : CallOptions}
  {result : CallResult kind} {contract : Settings} {w w' : ω}

theorem attempt_observed (done : attempt Settings.observe (.new options) wrapped kind options w = (w',.ok (result,contract))) :
    ∃ observed, attempt log [] wrapped kind options w = (w',.ok (result,observed)) ∧
      contract = contract_after options observed := by
  have same (observed : List CallOptions) (o : CallOptions) :
      (contract_after options observed).observe o = contract_after options (log observed o) :=
    (contract_after_append [o]).symm
  have related := call_related same wrapped.model wrapped.layers kind options [] w
  have fresh : contract_after options [] = .new options := rfl
  rw [fresh] at related
  unfold attempt at done ⊢
  rw [related] at done
  cases outcome : call log wrapped.model wrapped.layers kind options [] w with
  | mk observed rest =>
    obtain ⟨_,answered⟩ := rest
    rw [outcome] at done
    cases answered with
    | error => cases done
    | ok =>
      cases done
      exact ⟨observed,rfl,rfl⟩

theorem call_model_observed (done : call_model wrapped max_retries kind options w = (w',.ok (result,contract))) :
    ∃ w₀ observed, attempt log [] wrapped kind options w₀ = (w',.ok (result,observed)) ∧
      contract = contract_after options observed := by
  obtain ⟨-,w₀,tried⟩ := retry_ok done
  exact ⟨w₀,attempt_observed tried⟩

end

variable {pending : Finset ToolCallId} {r : StepResult} {call : ParsedToolCall}

section
variable {ctx : LoopContext} {original : ToolSet} {options : CallOptions} {observed : List CallOptions}

variable {inputs : StepInputs}

theorem restricted_listed {source : ToolCall}
    (valid : (parse_tool_call (restricted options observed original inputs).parse source).invalid = false)
    (client : (parse_tool_call (restricted options observed original inputs).parse source).provider_executed = false) :
    Permitted options observed (parse_tool_call (restricted options observed original inputs).parse source).tool_name := by
  obtain ⟨_,mem,own⟩ := List.mem_map.mp (parse_tool_call_listed valid client)
  have permitted := (List.mem_filter.mp mem).2
  rw [← own]
  exact of_decide_eq_true permitted

theorem run_step_executed {duration_ms : ToolCallId → Nat} {result : GenerateResult}
    (done : GenerateText.run_step ctx inputs duration_ms result pending = .ok r) (ran : call ∈ r.executed) :
    call.invalid = false ∧ call.provider_executed = false ∧
      ∃ source, .ToolCall source ∈ result.content ∧ call = parse_tool_call inputs.parse source := by
  obtain ⟨_,_,-,-,-,-,-,-,executed,-⟩ := run_step_ok done
  rw [executed,tasks_calls] at ran
  have handed_ := mem_of_mem_filter ran
  unfold handed at handed_
  split_ifs at handed_
  · obtain ⟨mem,fit⟩ := List.mem_filter.mp handed_
    simp only [Bool.and_eq_true,Bool.not_eq_true',decide_eq_true_eq] at fit
    exact ⟨fit.1.2,fit.1.1,convert_from_parsed _ _ mem⟩
  · cases handed_

end

def observedIn (items : List StreamItem) : List CallOptions :=
  items.filterMap fun
    | .observed options => some options
    | .part _ => none

theorem observedIn_append (first second : List StreamItem) :
    observedIn (first ++ second) = observedIn first ++ observedIn second := List.filterMap_append

def parsedIn (options : CallOptions) (original : ToolSet) (base : StepInputs) :
    (observed : List CallOptions) → List StreamItem → List ParsedToolCall
  | _,[] => []
  | observed,.observed passed :: rest => parsedIn options original base (observed ++ [passed]) rest
  | observed,.part part :: rest =>
    match part with
    | .ToolCall source => parse_tool_call (restricted options observed original base).parse source ::
        parsedIn options original base observed rest
    | _ => parsedIn options original base observed rest

structure Asked (options : CallOptions) (observed : List CallOptions) (original : ToolSet) (base : StepInputs)
    (items : List StreamItem) (call : ParsedToolCall) : Prop where
  valid : call.invalid = false
  client : call.provider_executed = false
  parsed : ∃ earlier source later, items = earlier ++ .part (.ToolCall source) :: later ∧
    call = parse_tool_call (restricted options (observed ++ observedIn earlier) original base).parse source

section
variable {ctx : LoopContext} {original : ToolSet} {options : CallOptions} {observed : List CallOptions}
  {stream : StreamConfig} {inputs base : StepInputs}

theorem parsedIn_append (first second : List StreamItem) : ∀ observed, parsedIn options original base observed (first ++ second) =
    parsedIn options original base observed first ++
      parsedIn options original base (observed ++ observedIn first) second := by
  induction first with
  | nil => intro observed; simp [parsedIn,observedIn]
  | cons item _ ih =>
    intro observed
    cases item with
    | observed => simp [parsedIn,observedIn,ih]
    | part part =>
      have later := ih observed
      cases part with
      | ToolCall => exact congrArg (List.cons _) later
      | _ => exact later

variable {items : List StreamItem}

theorem Asked.grows (asked : Asked options observed original base items call) (more : List StreamItem) :
    Asked options observed original base (items ++ more) call := by
  obtain ⟨earlier,source,later,split,parsed⟩ := asked.parsed
  refine ⟨asked.valid,asked.client,earlier,source,later ++ more,?_,parsed⟩
  rw [split,append_assoc,cons_append]

theorem Asked.permitted (asked : Asked options observed original base items call) : ∃ earlier source later,
      items = earlier ++ .part (.ToolCall source) :: later ∧
      call = parse_tool_call (restricted options (observed ++ observedIn earlier) original base).parse source ∧
      Permitted options (observed ++ observedIn earlier) call.tool_name := by
  obtain ⟨earlier,source,later,split,rfl⟩ := asked.parsed
  exact ⟨earlier,source,later,split,rfl,restricted_listed asked.valid asked.client⟩

theorem map_part_calls {a a' : Attempt} {part : StreamPart} {events : List StreamEvent}
    (mapped : a.map_part ctx inputs stream part = .ok (a',events)) :
    (a'.state.tool_calls = a.state.tool_calls ++ (match part with
      | .ToolCall source => [parse_tool_call inputs.parse source]
      | _ => [])) ∧
    ∀ call ∈ a'.state.queued, call ∈ a.state.queued ∨ ∃ source, part = .ToolCall source ∧
      call = parse_tool_call inputs.parse source ∧ call.invalid = false ∧ call.provider_executed = false := by
  have updates : ∀ {kind id delta metadata isEnd b mapped}, a.update_part kind id delta metadata isEnd = .ok (b,mapped) →
      b.state.tool_calls = a.state.tool_calls ∧ b.state.queued = a.state.queued := by
    intro kind id delta metadata isEnd b mapped done
    unfold Attempt.update_part at done
    split at done <;> cases done
    exact ⟨rfl,rfl⟩
  cases part <;> simp only [Attempt.map_part] at mapped
  case TextDelta | TextEnd | ReasoningDelta | ReasoningEnd =>
    obtain ⟨⟨b,_⟩,updated,done⟩ := bind_ok.mp mapped
    cases done
    obtain ⟨calls,queued⟩ := updates updated
    exact ⟨calls.trans (append_nil _).symm,fun call mem => .inl (queued ▸ mem)⟩
  case ToolCall source =>
    cases decided : decision ctx inputs (parse_tool_call inputs.parse source) with
    | error =>
      rw [map_tool_call_error decided] at mapped
      cases mapped
    | ok =>
      rw [map_tool_call_ok decided] at mapped
      cases mapped
      refine ⟨rfl,fun call mem => ?_⟩
      dsimp only at mem
      split_ifs at mem with isReady
      · rcases List.mem_append.mp mem with before | new
        · exact .inl before
        · obtain rfl := List.mem_singleton.mp new
          simp only [ready,Bool.and_eq_true,Bool.not_eq_true'] at isReady
          exact .inr ⟨source,rfl,rfl,isReady.1.1.2,isReady.1.1.1⟩
      · exact .inl mem
  case ToolApprovalRequest =>
    split at mapped <;> cases mapped
    exact ⟨(append_nil _).symm,fun call mem => .inl mem⟩
  all_goals
    cases mapped
    exact ⟨(append_nil _).symm,fun call mem => .inl mem⟩

/-- What is sent leaves the calls and the queue as they are. -/
def SameCalls (a b : Attempt) : Prop := b.state.tool_calls = a.state.tool_calls ∧ b.state.queued = a.state.queued

theorem SameCalls.emit (possible : Bool) (events : List StreamEvent) : ∀ a : Attempt,
    SameCalls a (events.foldl (Attempt.emit possible) a) := by
  induction events with
  | nil => intro a; exact ⟨rfl,rfl⟩
  | cons event _ ih =>
    intro a
    have later := ih (a.emit possible event)
    have first : SameCalls a (a.emit possible event) := by
      unfold Attempt.emit
      split_ifs
      · exact ⟨rfl,rfl⟩
      · cases event <;> exact ⟨rfl,rfl⟩
    exact ⟨later.1.trans first.1,later.2.trans first.2⟩

theorem SameCalls.flush_buffer (a : Attempt) : SameCalls a a.flush_buffer := by
  obtain ⟨_,_,flushed⟩ := flush_buffer_frame a
  rw [flushed]
  exact ⟨rfl,rfl⟩

structure Reading (options : CallOptions) (observed : List CallOptions) (original : ToolSet) (base : StepInputs)
    (before : List StreamItem) (inputs : StepInputs) (contract : Settings) (a : Attempt) : Prop where
  contract : contract = contract_after options (observed ++ observedIn before)
  inputs : ∀ fresh, refresh_tools inputs fresh original = refresh_tools base fresh original
  calls : a.state.tool_calls = parsedIn options original base observed before
  queued : ∀ call ∈ a.state.queued, Asked options observed original base before call

def Ended (options : CallOptions) (observed : List CallOptions) (original : ToolSet) (base : StepInputs)
    (items : List StreamItem) (result : ModelCallEnd) : Prop :=
  ∃ seen finish_reason usage metadata rest, items = seen ++ .part (.Finish finish_reason usage metadata) :: rest ∧
    check_tool_choice (effective_choice options (observed ++ observedIn seen))
      (parsedIn options original base observed seen) = .ok () ∧
    ∀ call ∈ result.queued, Asked options observed original base seen call

theorem Reading.finished (items : List StreamItem) : ∀ {before : List StreamItem} {inputs : StepInputs}
    {contract : Settings} {a b : Attempt} {pending_boundary : Bool} {result : ModelCallEnd},
    Reading options observed original base before inputs contract a →
    read_attempt ctx original stream inputs contract a pending_boundary items = (b,.ok (.Finished result)) →
    Ended options observed original base (before ++ items) result := by
  induction items with
  | nil =>
    intro before inputs contract a b pending_boundary result _ done
    cases done
  | cons item rest ih =>
    intro before inputs contract a b pending_boundary result reading done
    have split : before ++ item :: rest = (before ++ [item]) ++ rest := by simp
    have kept : ∀ call ∈ a.state.queued, Asked options observed original base (before ++ [item]) call :=
      fun call mem => (reading.queued call mem).grows [item]
    cases item with
    | observed =>
      rw [split]
      refine ih ⟨?_,reading.inputs,?_,kept⟩ done
      · rw [observedIn_append,← append_assoc,contract_after_append,← reading.contract]
        rfl
      · rw [parsedIn_append,reading.calls]
        exact (append_nil _).symm
    | part part =>
      have seen : observedIn (before ++ [.part part]) = observedIn before := by simp [observedIn]
      have current : contract = contract_after options (observed ++ observedIn (before ++ [.part part])) := by
        rw [seen]
        exact reading.contract
      unfold read_attempt at done
      dsimp only at done
      generalize announced : (if pending_boundary then a.emit_boundary (Attempt.streamStartWarnings part) else a) = c at done
      have boundary : SameCalls a c := by
        rw [← announced]
        cases pending_boundary <;> exact ⟨rfl,rfl⟩
      generalize begun : (if c.started_step then c else c.emit_start_step) = d at done
      have start : SameCalls a d := by
        rw [← begun]
        split_ifs <;> exact boundary
      -- a part that is mapped: the calls grow by the one it may be, parsed with the tools that are left now
      have mapped : ∀ {next : Attempt × List StreamEvent},
          d.map_part ctx (refreshed_for original inputs contract part) stream part = .ok next →
          read_attempt ctx original stream (refreshed_for original inputs contract part) contract
            (next.2.foldl (Attempt.emit stream.retries_possible) next.1) false rest = (b,.ok (.Finished result)) →
          Ended options observed original base (before ++ .part part :: rest) result := by
        intro next mapping notEnd
        have refreshed : refresh_tools inputs contract original =
            restricted options (observed ++ observedIn before) original base := by
          rw [reading.inputs,reading.contract,refresh_tools_eq]
        obtain ⟨calls,queued⟩ := map_part_calls mapping
        have sent := SameCalls.emit stream.retries_possible next.2 next.1
        rw [split]
        refine ih ⟨current,?_,?_,?_⟩ notEnd
        · intro fresh
          cases part with
          | ToolCall => exact (refresh_tools_again inputs contract fresh original).trans (reading.inputs fresh)
          | _ => exact reading.inputs fresh
        · rw [sent.1,calls,start.1,reading.calls,parsedIn_append]
          cases part with
          | ToolCall =>
            dsimp only [refreshed_for]
            rw [refreshed]
            rfl
          | _ => rfl
        · intro call mem
          rw [sent.2] at mem
          rcases queued call mem with old | ⟨source,rfl,parsed,valid,client⟩
          · exact kept call (start.2 ▸ old)
          · exact ⟨valid,client,before,source,[],rfl,by rw [parsed,refreshed_for,refreshed]⟩
      cases part with
      | StreamStart =>
        dsimp only at done
        rw [split]
        refine ih ⟨current,reading.inputs,?_,?_⟩ done
        · rw [parsedIn_append]
          exact (boundary.1.trans reading.calls).trans (append_nil _).symm
        · intro call mem
          exact kept call (boundary.2 ▸ mem)
      | Error =>
        dsimp only at done
        unfold Attempt.handle_stream_error at done
        split_ifs at done <;> cases done
      | Finish finish_reason usage metadata =>
        dsimp only at done
        refine ⟨before,finish_reason,usage,metadata,rest,rfl,?_⟩
        obtain ⟨_,finished,same⟩ := Result.map_ok.mp (congrArg Prod.snd done)
        cases same
        obtain ⟨_,chosen,ended⟩ := bind_ok.mp finished
        cases ended
        have flushed := SameCalls.flush_buffer d
        rw [reading.inputs,reading.contract,refresh_tools_eq,flushed.1,start.1,reading.calls] at chosen
        refine ⟨chosen,fun call mem => reading.queued call ?_⟩
        dsimp only at mem
        rw [flushed.2] at mem
        exact start.2 ▸ mem
      | _ =>
        dsimp only at done
        split at done
        · cases done
        · next mapping => exact mapped mapping done

variable {ω : Type} {wrapped : WrappedLanguageModel ω} {max_retries : Nat} {prepared : PreparedStep}

theorem read_finished (stores : List ω) : ∀ {inputs : StepInputs} {a b : Attempt} {pending_boundary : Bool}
    {result : ModelCallEnd}, (∀ fresh, refresh_tools inputs fresh original = refresh_tools base fresh original) →
    a.state = .new →
    read ctx original wrapped max_retries prepared stream inputs a pending_boundary stores = (b,.ok result) →
    ∃ w₀ w' items observed, attempt log [] wrapped .Stream (Middleware.options prepared) w₀ = (w',.ok (items,observed)) ∧
      Ended (Middleware.options prepared) observed original base items result := by
  induction stores with
  | nil =>
    intro inputs a b pending_boundary result _ _ done
    cases done
  | cons w _ ih =>
    intro inputs a b pending_boundary result fresh empty done
    rw [read] at done
    cases called : call_model wrapped max_retries .Stream (options prepared) w with
    | mk w' outcome =>
      rw [called] at done
      cases outcome with
      | error => cases done
      | ok found =>
        obtain ⟨items,_⟩ := found
        obtain ⟨w₀,observed,attempted,rfl⟩ := call_model_observed called
        dsimp only at done
        generalize reading : read_attempt ctx original stream _ _ a pending_boundary items = outcome at done
        obtain ⟨c,ended⟩ := outcome
        cases ended with
        | error => cases done
        | ok ended =>
          cases ended with
          | Finished =>
            cases done
            have starts : Reading (options prepared) observed original base []
                (refresh_tools inputs (contract_after (options prepared) observed) original)
                (contract_after (options prepared) observed) a :=
              ⟨by simp [observedIn],fun next => (refresh_tools_again _ _ next _).trans (fresh next),by rw [empty]; rfl,
                by simp [empty,AttemptState.new]⟩
            exact ⟨w₀,w',items,observed,attempted,starts.finished items reading⟩
          | Retry =>
            refine ih ?_ rfl done
            exact fun next => (refresh_tools_again _ _ next _).trans (fresh next)

theorem stream_step_finished {stage : StageContext} {stores : List ω}
    (done : stream_step ctx original wrapped max_retries prepared stage pending stores = .ok r) :
    ∃ w₀ w' items observed result,
      attempt log [] wrapped .Stream (Middleware.options prepared) w₀ = (w',.ok (items,observed)) ∧
      Ended (Middleware.options prepared) observed original prepared.inputs items result ∧
      ∀ call ∈ r.executed, call ∈ result.queued := by
  unfold stream_step at done
  split at done
  · cases done
  · next a result finished =>
    obtain ⟨w₀,w',items,observed,attempted,ended⟩ := read_finished stores (fun _ => rfl) rfl finished
    split at done
    · cases done
    · next step stepped =>
      cases done
      exact ⟨w₀,w',items,observed,result,attempted,ended,fun call ran => finish_step_executed stepped ran⟩

end

/-! ### Both loops -/

section
variable {config : CallConfig} {response_messages : List Message} {overrides : StepOverrides} {state : StepState}
  {prepared : PreparedStep}

theorem options_names (preparing : prepare_step_inputs config response_messages (.ok overrides) state = .ok prepared) :
    (options prepared).names =
      (filter_active config.model_tools (overrides.active_tools.or config.active_tools)).names := by
  obtain ⟨_,-,done⟩ := bind_ok.mp preparing
  obtain ⟨_,same,done⟩ := bind_ok.mp done
  cases same
  obtain ⟨_,-,done⟩ := bind_ok.mp done
  obtain ⟨_,-,done⟩ := bind_ok.mp done
  cases done
  have named (entry : ToolName × Tool) : (definition entry.1 entry.2).name = entry.1 := by
    unfold definition
    cases entry.2.kind <;> rfl
  simp [options,CallOptions.names,ToolSet.names,named]

/-- Whatever the layers of middleware do, the client runs a tool for a call of an attempt only if the tool is active in
the step and in every options value that this attempt, and no other, observed before the call was parsed. Calls are
parsed and checked with the last tool choice that was observed, unless it forces a tool that is no longer permitted. -/
theorem tool_restrictions_enforced {ω : Type} (ctx : LoopContext) (wrapped : WrappedLanguageModel ω) (max_retries : Nat)
    (preparing : prepare_step_inputs config response_messages (.ok overrides) state = .ok prepared) :
    (∀ duration_ms pending w w' r,
      run_step ctx config.model_tools wrapped max_retries prepared duration_ms pending w = (w',.ok r) →
      ∃ w₀ result observed, attempt log [] wrapped .Generate (options prepared) w₀ = (w',.ok (result,observed)) ∧
        GenerateText.run_step ctx (restricted (options prepared) observed config.model_tools prepared.inputs) duration_ms
          result pending = .ok r ∧
        ∀ call ∈ r.executed,
          call.tool_name ∈ (filter_active config.model_tools (overrides.active_tools.or config.active_tools)).names ∧
          ∀ o ∈ observed, call.tool_name ∈ o.names) ∧
    (∀ stage pending stores r,
      stream_step ctx config.model_tools wrapped max_retries prepared stage pending stores = .ok r →
      ∃ w₀ w' items observed, attempt log [] wrapped .Stream (options prepared) w₀ = (w',.ok (items,observed)) ∧
        ∃ seen finish_reason usage metadata rest,
          items = seen ++ .part (.Finish finish_reason usage metadata) :: rest ∧
          check_tool_choice (effective_choice (options prepared) (observed ++ observedIn seen))
            (parsedIn (options prepared) config.model_tools prepared.inputs observed seen) = .ok () ∧
          ∀ call ∈ r.executed, ∃ earlier source later, seen = earlier ++ .part (.ToolCall source) :: later ∧
            call = parse_tool_call (restricted (options prepared) (observed ++ observedIn earlier) config.model_tools
              prepared.inputs).parse source ∧
            call.tool_name ∈ (filter_active config.model_tools (overrides.active_tools.or config.active_tools)).names ∧
            ∀ o ∈ observed ++ observedIn earlier, call.tool_name ∈ o.names) := by
  have split {observed : List CallOptions} {name : ToolName} (permitted : Permitted (options prepared) observed name) :
      name ∈ (filter_active config.model_tools (overrides.active_tools.or config.active_tools)).names ∧
        ∀ o ∈ observed, name ∈ o.names :=
    ⟨options_names preparing ▸ permitted _ mem_cons_self,fun o member => permitted o (mem_cons_of_mem _ member)⟩
  constructor
  · intro duration_ms pending w w' r done
    unfold run_step at done
    split at done
    · cases done
    · next w'' result contract called =>
      obtain ⟨w₀,observed,attempted,rfl⟩ := call_model_observed called
      rw [refresh_tools_eq] at done
      split at done
      · cases done
      · next step stepped =>
        cases done
        refine ⟨w₀,result,observed,attempted,stepped,fun call ran => ?_⟩
        obtain ⟨valid,client,source,-,rfl⟩ := run_step_executed stepped ran
        exact split (restricted_listed valid client)
  · intro stage pending stores r done
    obtain ⟨w₀,w',items,observed,result,attempted,⟨seen,reason,usage,metadata,rest,ends,chosen,asked⟩,ran⟩ :=
      stream_step_finished done
    refine ⟨w₀,w',items,observed,attempted,seen,reason,usage,metadata,rest,ends,chosen,fun call member => ?_⟩
    obtain ⟨earlier,source,later,came,parsed,permitted⟩ := (asked call (ran call member)).permitted
    exact ⟨earlier,source,later,came,parsed,split permitted⟩

end

/-- A layer whose continuation gets other tools than the layer got. -/
def passing (change : List ToolDefinition → List ToolDefinition) : LanguageModelMiddleware Unit where
  transform_params := fun options _ => .done (.ok options)
  wrap_generate := fun options => .ask (.next { options with tools := change options.tools }) fun reply => .done reply
  wrap_stream := fun options => .ask (.next { options with tools := change options.tools }) fun reply => .done reply

/-- The outer layer takes the second tool away and the inner one gives it back. The model calls both. -/
def shopping : WrappedLanguageModel Unit where
  layers := [passing fun tools => tools.take 1,passing fun tools => tools ++ [.Function "shop"]]
  model := fun kind _ w => match kind with
    | .Generate => (w,.ok ⟨[.ToolCall (.new "call-1" "search" ""),.ToolCall (.new "call-2" "shop" "")],.new .ToolCalls⟩)
    | .Stream => (w,.ok [.part (.Finish (.new .Stop) .default none)])

def search_and_shop : ToolSet := [("search",plainTool .null),("shop",plainTool .null)]

theorem tool_restrictions_enforced_shopping : ∃ prepared,
    prepare_step_inputs (.plain search_and_shop []) [] (.ok .default) (.new (.plain search_and_shop [])) = .ok prepared ∧
    ∀ w' r, run_step (.plain search_and_shop none) search_and_shop shopping 0 prepared (fun _ => 0) ∅ () = (w',.ok r) →
      ∀ call ∈ r.executed, call.tool_name ∈ search_and_shop.names := by
  have check : (prepare_step_inputs (.plain search_and_shop []) [] (.ok .default)
      (.new (.plain search_and_shop []))).toOption.isSome = true := by decide
  cases ready : prepare_step_inputs (.plain search_and_shop []) [] (.ok .default) (.new (.plain search_and_shop [])) with
  | error error =>
    rw [ready] at check
    cases check
  | ok prepared =>
    refine ⟨prepared,rfl,fun w' r done call ran => ?_⟩
    obtain ⟨_,_,_,_,_,permitted⟩ :=
      (tool_restrictions_enforced (.plain search_and_shop none) shopping 0 ready).1 _ _ _ _ _ done
    exact (permitted call ran).1

example : ((prepare_step_inputs (.plain search_and_shop []) [] (.ok .default)
      (.new (.plain search_and_shop []))).toOption.bind fun prepared =>
    (run_step (.plain search_and_shop none) search_and_shop shopping 0 prepared (fun _ => 0) ∅ ()).2.toOption).map
      (·.executed.map (·.tool_name)) = some ["search"] := by
  decide

end Ferrin.Middleware
