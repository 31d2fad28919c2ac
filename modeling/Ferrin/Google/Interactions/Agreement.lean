import Ferrin.Google.Interactions.StreamedOutput

/-!
Complete and streamed interactions. Whatever their steps are and however they
are streamed, both have the same content, except that the texts of a summary
are joined differently and that sources under one key are told apart by block
in one and over the whole response in the other
(`steps_complete_streamed_agree`).
-/
namespace Ferrin.Google.Interactions
open Ferrin.Stream Ferrin.StreamText List State
open Prod (fst snd)
open JsonObject (get)
open JsonValue (as_str object)

/-! ### Sources told apart by group -/

theorem distinct_sublist (sources : List Source) : ∀ seen, (distinct seen sources).Sublist sources := by
  induction sources with
  | nil => exact fun _ => .slnil
  | cons source _ ih =>
    intro seen
    rw [distinct]
    split
    · exact (ih seen).cons source
    · exact (ih _).cons_cons source

theorem distinct_covers (sources : List Source) : ∀ (seen : List String) {source : Source}, source ∈ sources → key source ∉ seen →
    ∃ other ∈ distinct seen sources, key other = key source := by
  induction sources with
  | nil => simp
  | cons first _ ih =>
    intro seen source mem new
    rw [distinct]
    split
    · rename_i known
      obtain rfl | later := List.mem_cons.mp mem
      · exact absurd known new
      · exact ih seen later new
    · by_cases same : key source = key first
      · exact ⟨first,by simp,same.symm⟩
      · obtain rfl | later := List.mem_cons.mp mem
        · exact absurd rfl same
        · obtain ⟨other,found,alike⟩ := ih (key first :: seen) later (by simp [same,new])
          exact ⟨other,mem_cons_of_mem _ found,alike⟩

theorem distinct_unseen (sources : List Source) : ∀ {seen : List String}, ∀ source ∈ distinct seen sources, key source ∉ seen := by
  induction sources with
  | nil => simp [distinct]
  | cons _ _ ih =>
    intro seen source mem
    rw [distinct] at mem
    split at mem
    · exact ih source mem
    · obtain rfl | later := List.mem_cons.mp mem
      · assumption
      · exact fun known => ih source later (mem_cons_of_mem _ known)

theorem distinct_unique (sources : List Source) : ∀ {seen : List String} {a b : Source}, a ∈ distinct seen sources →
    b ∈ distinct seen sources → key a = key b → a = b := by
  induction sources with
  | nil => simp [distinct]
  | cons _ rest ih =>
    intro seen a b memberA memberB same
    rw [distinct] at memberA memberB
    split at memberA
    · rename_i known
      rw [if_pos known] at memberB
      exact ih memberA memberB same
    · rename_i new
      rw [if_neg new] at memberB
      obtain rfl | laterA := List.mem_cons.mp memberA <;> obtain rfl | laterB := List.mem_cons.mp memberB
      · rfl
      · exact absurd (by simp [same]) (distinct_unseen rest b laterB)
      · exact absurd (by simp [same]) (distinct_unseen rest a laterA)
      · exact ih laterA laterB same

theorem distinct_groups_iff (groups : List (List Source)) :
    (∀ source, source ∈ distinct [] groups.flatten ↔ source ∈ groups.flatMap (distinct [])) ↔
      ∀ a ∈ groups.flatMap (distinct []), ∀ b ∈ groups.flatMap (distinct []), key a = key b → a = b := by
  have whole : distinct [] groups.flatten = distinct [] (groups.flatMap (distinct [])) := by
    rw [distinct_eq_fresh,distinct_eq_fresh,fresh_groups]
  rw [whole]
  constructor
  · intro same a memberA b memberB alike
    exact distinct_unique _ ((same a).mpr memberA) ((same b).mpr memberB) alike
  · intro unique source
    refine ⟨fun mem => (distinct_sublist _ _).subset mem,fun mem => ?_⟩
    obtain ⟨other,found,alike⟩ := distinct_covers _ [] mem (not_mem_nil (a := key source))
    exact unique other ((distinct_sublist _ _).subset found) source mem alike ▸ found

theorem length_intercalate (text : String) (rest : List String) :
    ("\n".intercalate (text :: rest)).length = (String.join (text :: rest)).length + rest.length := by
  induction rest generalizing text with
  | nil => simp
  | cons more rest ih =>
    have joined : (String.join (text :: more :: rest)).length = text.length + (String.join (more :: rest)).length := by
      rw [String.join_cons,String.length_append]
    have newline : "\n".length = 1 := by decide
    rw [String.intercalate_cons_cons,String.length_append,String.length_append,ih,joined,length_cons]
    omega

theorem intercalate_eq_join_iff (texts : List String) : "\n".intercalate texts = String.join texts ↔ texts.length ≤ 1 := by
  cases texts with
  | nil => simp
  | cons text rest =>
    constructor
    · intro same
      have length := length_intercalate text rest
      rw [same] at length
      simp only [length_cons]
      omega
    · intro short
      obtain rfl : rest = [] := eq_nil_of_length_eq_zero (by simpa using short)
      simp

section
variable {config : Config} {interaction_id : Option String} {aliases : List (String × String)} {b : StepStream} {content : List Content}

def Reads (config : Config) (interaction_id : Option String) (aliases : List (String × String)) (step : JsonValue)
    (content : List Content) : Prop :=
  ∃ generated, (Interactions.step config generated step interaction_id aliases).2 = .ok content

theorem steps_content_eq (steps : List JsonValue) : ∀ {generated : Nat} {content : List Content},
    (steps_content config interaction_id aliases generated steps).2 = .ok content → ∃ each : List (List Content),
      List.Forall₂ (Reads config interaction_id aliases) steps each ∧ content = each.flatten := by
  induction steps with
  | nil =>
    intro generated content read
    cases read
    exact ⟨[],.nil,rfl⟩
  | cons step rest ih =>
    intro generated content read
    rcases first : Interactions.step config generated step interaction_id aliases with ⟨later,error | here⟩
    · simp [steps_content,first] at read
    · simp only [steps_content,first] at read
      rcases others : (steps_content config interaction_id aliases later rest).2 with _ | _
      · rw [others] at read
        cases read
      · rw [others] at read
        cases read
        obtain ⟨each,reads,rfl⟩ := ih others
        exact ⟨here :: each,.cons ⟨generated,congrArg snd first⟩ reads,rfl⟩

def stepSources (config : Config) (step : JsonValue) : List Source := (stepGroups config step).flatMap (distinct [])

theorem StepStream.Brings.complete (brings : b.Brings config) (reads : Reads config interaction_id aliases b.step content) :
    (sources content).map erased = stepSources config b.step ∧
      content.any isFunction = decide (b.step.text "type" = some "function_call") := by
  obtain ⟨generated,read⟩ := reads
  obtain ⟨-,kind,typed,-,brings⟩ := brings
  split at brings
  · subst kind
    have isKind : (b.step.text "type").getD "" = "model_output" := by rw [typed]; rfl
    simp only [Interactions.step,isKind,if_true] at read
    obtain ⟨content',again,holds⟩ := blocks_hold (part_metadata config b.step interaction_id) _ (readable_of_blocks _ _ _ read) generated
    obtain rfl : content = content' := Except.ok.inj (read.symm.trans again)
    refine ⟨by rw [holds.sources,stepSources,stepGroups,typed]; rfl,?_⟩
    have noCall : content.any isFunction = false := by
      refine List.any_eq_false.mpr fun c member => ?_
      have known := holds.known c member
      cases c <;> first | exact Bool.false_ne_true | cases known
    simpa [typed] using noCall
  · split at brings
    · subst kind
      have isKind : (b.step.text "type").getD "" = "thought" := by rw [typed]; rfl
      simp only [Interactions.step,isKind,String.reduceEq,if_false,if_true] at read
      cases read
      simp [stepSources,stepGroups,typed,isResult,sources,sourceOf,isFunction]
    · split at brings
      · subst kind
        rw [function_step config typed (valid_of_complete typed read)] at read
        cases read
        simp [stepSources,stepGroups,typed,isResult,sources,sourceOf,isFunction,functionCall]
      · obtain ⟨whole,called,answered,-⟩ := brings
        obtain ⟨c,-,noText,noSource,isPiece,noCall,mapped⟩ := whole_content config whole typed called answered interaction_id aliases
        obtain ⟨found,read',same⟩ := mapped generated
        obtain rfl : content = c :: found.map .Source := Except.ok.inj (read.symm.trans read')
        refine ⟨by rw [(whole_parts noText noSource isPiece found).2.2,same,stepSources],?_⟩
        have others : (found.map Content.Source).any isFunction = false := by simp [isFunction]
        rw [any_cons,noCall,others,typed]
        simp_all

variable {s : State} (include_raw : Bool)

theorem StepStream.Brings.adds (brings : b.Brings config) (idle : s.open_steps = [])
    (reads : Reads config s.interaction_id s.aliases b.step content) {events : Events} (streams : b.Streams (events.map fst)) :
    Adds config include_raw s b.step events content := by
  obtain ⟨isObject,kind,typed,begins,brings⟩ := brings
  obtain ⟨_,read⟩ := reads
  split at brings
  · subst kind
    exact adds_output typed begins brings idle read streams
  · split at brings
    · subst kind
      exact adds_thought typed begins isObject brings idle read streams
    · split at brings
      · subst kind
        exact adds_function typed begins isObject brings idle read streams
      · exact adds_whole brings.1 typed begins isObject brings idle read streams

abbrev Item := StepStream × List Content

def isCall (item : Item) : Bool := item.1.step.text "type" = some "function_call"

theorem steps_lead (items : List Item) : ∀ {s : State} {segments : List Events} (before : List Content), s.open_steps = [] →
    (∀ item ∈ items, item.1.Brings config ∧ Reads config s.interaction_id s.aliases item.1.step item.2) →
    List.Forall₂ (fun item events => item.1.Streams (events.map fst)) items segments → ∃ told found generated,
      EventsLead config include_raw s ⟨before,.empty⟩ segments.flatten
        (s.between (fresh s.emitted_sources found).1 generated (s.function || items.any isCall)) ⟨before ++ told.flatten,.empty⟩ ∧
      List.Forall₂ (fun item segment => said segment = said item.2 ∧
        pieces segment = streamedPieces config item.1.step s.interaction_id item.2) items told ∧
      sources told.flatten = (fresh s.emitted_sources found).2 ∧ Cites found (items.flatMap fun item => stepCites config item.1.step) := by
  induction items with
  | nil =>
    intro s segments before idle _ streams
    cases streams
    refine ⟨[],[],s.generated,?_,.nil,rfl,fun _ => rfl⟩
    have same : s.between s.emitted_sources s.generated s.function = s := by
      rw [between,← idle]
    have stays : EventsLead config include_raw s ⟨before,.empty⟩ [] s ⟨before,.empty⟩ := Leads.none s _
    simpa [fresh,same] using stays
  | cons item _ ih =>
    intro s segments before idle known streams
    obtain ⟨_,_,first,later,rfl⟩ := List.forall₂_cons_left_iff.mp streams
    obtain ⟨brings,reads⟩ := known item (by simp)
    obtain ⟨segment,found,generated,leads,saying,filed,cited,cites⟩ := brings.adds include_raw idle reads first before
    obtain ⟨told,more,last,leads',alike,cited',cites'⟩ := ih
      (s := s.between (fresh s.emitted_sources found).1 generated (s.function || item.1.step.text "type" = some "function_call"))
      (before ++ segment) rfl (fun item mem => known item (by simp [mem])) later
    refine ⟨segment :: told,found ++ more,last,?_,.cons ⟨saying,filed⟩ alike,?_,?_⟩
    · have whole := leads.trans leads'
      simpa [fresh_append,between,isCall,Bool.or_assoc] using whole
    · rw [flatten_cons,sources_append,cited,cited',fresh_append]
      rfl
    · rw [flatMap_cons]
      exact cites.append cites'

def IsCreated (response event : JsonValue) : Prop :=
  event.text "event_type" = some "interaction.created" ∧ (event.index "interaction").text "id" = response.text "id"

def IsCompleted (response event : JsonValue) : Prop :=
  ∃ kind members, event.text "event_type" = some kind ∧ State.isCompletion kind = true ∧ event.index "interaction" = .object members ∧
    (object members).text "status" = response.text "status" ∧
    (object members).index "usage" = response.index "usage" ∧ State.isFinalStatus (response.text "status") = true

def told (config : Config) (include_raw : Bool) (aliases : List (String × String)) (chunks : List (ParseResult JsonValue)) :
    List StreamPart :=
  outputs (State.machine config) include_raw (.new aliases) (terminal_chunks chunks)

theorem StepStream.Streams.live {events : List JsonValue} (streams : b.Streams events) : ∀ event ∈ events, isTerminal event = false := by
  obtain ⟨_,_,_,rfl,⟨isStart,-⟩,areDeltas,isStop⟩ := streams
  have live (kind : String) (event : JsonValue) (isEvent : IsEvent kind b.index event) (other : State.isCompletion kind = false)
      (fine : kind ≠ "error") : isTerminal event = false := by
    simp [isTerminal,isEvent.1,other,fine]
  intro event mem
  simp only [cons_append,mem_cons,mem_append,not_mem_nil,or_false] at mem
  obtain rfl | mem | rfl := mem
  · exact live _ _ isStart rfl (by decide)
  · obtain ⟨n,inside,rfl⟩ := getElem_of_mem mem
    exact live _ _ (areDeltas.get inside (areDeltas.length_eq ▸ inside)).1 rfl (by decide)
  · exact live _ _ isStop rfl (by decide)

theorem terminal_chunks_live (events : Events) (live : ∀ event ∈ events, isTerminal event.1 = false)
    (last : JsonValue × JsonValue) (ends : isTerminal last.1 = true) (rest : List (ParseResult JsonValue)) :
    terminal_chunks (chunksOf (events ++ [last]) ++ rest) = chunksOf (events ++ [last]) := by
  induction events with
  | nil => simp [chunksOf,terminal_chunks,ends]
  | cons event _ ih =>
    have later := ih fun event mem => live event (by simp [mem])
    simpa [chunksOf,terminal_chunks,live event (by simp)] using later

section
variable {response : JsonValue} {events : Events} {created completed : JsonValue × JsonValue} {items : List Item} {segments : List Events}

theorem interaction_told (isCreated : IsCreated response created.1) (isCompleted : IsCompleted response completed.1)
    (known : ∀ item ∈ items, item.1.Brings config ∧ Reads config (response.text "id") aliases item.1.step item.2)
    (streamed : List.Forall₂ (fun item events => item.1.Streams (events.map fst)) items segments)
    (rest : List (ParseResult JsonValue)) :
    let outputs := told config include_raw aliases (chunksOf (created :: segments.flatten ++ [completed]) ++ rest)
    ∃ segments found, accumulate outputs = .ok segments.flatten ∧
      List.Forall₂ (fun item segment => said segment = said item.2 ∧
        pieces segment = streamedPieces config item.1.step (response.text "id") item.2) items segments ∧
      sources segments.flatten = (fresh [] found).2 ∧ Cites found (items.flatMap fun item => stepCites config item.1.step) ∧
      ∃ metadata, outputs.getLast? = some (.Finish (finish ((response.text "status").getD "completed") (items.any isCall))
        (usage (response.index "usage")) metadata) := by
  let s := (new aliases).with_interaction (created.1.index "interaction")
  have sameId : s.interaction_id = response.text "id" := isCreated.2
  have opens : EventsLead config include_raw (.new aliases) .start [created] s ⟨[],.empty⟩ := by
    refine EventsLead.one [.ResponseMetadata (nonempty s.interaction_id) none (s.interaction.text "model")] (t := s) ?_ rfl
    rw [State.dispatch,isCreated.1]
    rfl
  obtain ⟨segments',found,generated,goes,alike,cited,cites⟩ := steps_lead include_raw items (s := s) [] rfl
    (by rw [sameId]; exact known) streamed
  obtain ⟨_,members,typed,completion,whole,status,used,final⟩ := isCompleted
  rw [sameId] at alike
  let t := s.between (fresh s.emitted_sources found).1 generated (s.function || items.any isCall)
  let u : State := { t with interaction := .object members,terminal := true }
  have closes : EventsLead config include_raw t ⟨segments'.flatten,.empty⟩ [completed] u ⟨segments'.flatten,.empty⟩ := by
    refine EventsLead.one [] (t := u) ?_ rfl
    have final' : isFinalStatus ((get members "status").bind as_str) = true := by
      have same : (get members "status").bind as_str = (object members).text "status" := by
        show _ = ((get members "status").getD .null).as_str
        cases get members "status" <;> rfl
      rw [same,status,final]
    have idle : t.open_steps = [] := rfl
    simp only [State.isCompletion,mem_cons,not_mem_nil,or_false,decide_eq_true_eq] at completion
    obtain rfl | rfl := completion <;> simp [State.dispatch,typed,State.isCompletion,State.completed,idle,whole,final',u]
  have leads : Leads (machine config) include_raw (.new aliases) .start
      (chunksOf (created :: segments.flatten ++ [completed])) u ⟨segments'.flatten,.empty⟩ := opens.trans (goes.trans closes)
  have isTerminal : isTerminal completed.1 = true := by simp [isTerminal,typed,completion]
  have live : ∀ event ∈ created :: segments.flatten, Interactions.isTerminal event.1 = false := by
    refine List.forall_mem_cons.mpr ⟨by simp [Interactions.isTerminal,isCreated.1,State.isCompletion],fun event mem => ?_⟩
    obtain ⟨_,segment,inside⟩ := List.mem_flatten.mp mem
    obtain ⟨n,bound,rfl⟩ := getElem_of_mem segment
    exact (streamed.get (streamed.length_eq ▸ bound) bound).live event.1 (mem_map_of_mem inside)
  have cut := terminal_chunks_live _ live completed isTerminal rest
  have finished : u.finish config = [.Finish (finish ((response.text "status").getD "completed") (items.any isCall))
      (usage (response.index "usage")) (some (response_metadata config (.object members)))] := by
    simp only [State.finish,u,status,used]
    rfl
  obtain ⟨shown,all,_⟩ := leads.outputs
  refine ⟨segments',found,?_,alike,cited,cites,some (response_metadata config (.object members)),?_⟩
  · rw [told,cut]
    exact leads.accumulated (by
      show ∀ part ∈ u.finish config, _
      simp [finished,Accumulation.silent])
  · rw [told,cut,all]
    show (shown ++ u.finish config).getLast? = _
    rw [finished,getLast?_concat]

/-- What the claims of two contents of a step have in common: the text, and everything else that is no source. -/
def SameStep (complete streamed : List Content) : Prop := said streamed = said complete ∧ pieces streamed = pieces complete

/-- The streamed content is made of the contents of the steps, up to how texts and sources are placed, and has the same
    sources up to their ids. -/
def SameContent (config : Config) (interaction_id : Option String) (aliases : List (String × String)) (steps : List JsonValue)
    (complete streamed : List Content) : Prop :=
  (∃ each segments, List.Forall₂ (Reads config interaction_id aliases) steps each ∧ complete = each.flatten ∧
    streamed = segments.flatten ∧ List.Forall₂ SameStep each segments) ∧
    ∀ source, source ∈ (sources streamed).map erased ↔ source ∈ (sources complete).map erased

def SingleSummaries (steps : List JsonValue) : Prop :=
  ∀ step ∈ steps, step.text "type" = some "thought" → (summary step).length ≤ 1

/-- Sources of different blocks with one key are the same, up to their ids. -/
def SourcesByKey (config : Config) (steps : List JsonValue) : Prop :=
  ∀ a ∈ steps.flatMap (stepSources config), ∀ b ∈ steps.flatMap (stepSources config), key a = key b → a = b

theorem flatMap_eq_iff {α β : Type} {f g : α → List β} (items : List α) (lengths : ∀ item ∈ items, (f item).length = (g item).length) :
    items.flatMap f = items.flatMap g ↔ ∀ item ∈ items, f item = g item := by
  induction items with
  | nil => simp
  | cons item _ ih =>
    rw [flatMap_cons,flatMap_cons,forall_mem_cons,← ih fun item mem => lengths item (by simp [mem])]
    exact ⟨fun same => append_inj same (lengths item (by simp)),fun ⟨first,others⟩ => by rw [first,others]⟩

theorem flatMap_of_forall₂ {α β γ : Type} {f : α → List γ} {g : β → List γ} {first : List α} {second : List β}
    (alike : List.Forall₂ (fun a b => f a = g b) first second) : first.flatMap f = second.flatMap g := by
  induction alike with
  | nil => rfl
  | cons same _ ih => rw [flatMap_cons,flatMap_cons,same,ih]

theorem pieces_flatten (contents : List (List Content)) : pieces contents.flatten = contents.flatMap pieces := by
  rw [pieces,filterMap_flatten,flatMap_def]
  rfl

theorem sources_flatten (contents : List (List Content)) : sources contents.flatten = contents.flatMap sources := by
  rw [sources,filterMap_flatten,flatMap_def]
  rfl

theorem StepStream.Brings.pieces_same_iff (reads : Reads config interaction_id aliases b.step content) :
    (pieces content).length = (streamedPieces config b.step interaction_id content).length ∧
      (pieces content = streamedPieces config b.step interaction_id content ↔
        (b.step.text "type" = some "thought" → (summary b.step).length ≤ 1)) := by
  by_cases thought : b.step.text "type" = some "thought"
  · obtain ⟨_,read⟩ := reads
    have kind : (b.step.text "type").getD "" = "thought" := by rw [thought]; rfl
    simp only [Interactions.step,kind,String.reduceEq,if_false,if_true] at read
    cases read
    rw [streamedPieces,if_pos thought]
    refine ⟨rfl,?_⟩
    have whole : pieces [.Reasoning ("\n".intercalate (summary b.step)) (some (part_metadata config b.step interaction_id))] =
        [.Reasoning ("\n".intercalate (summary b.step)) (some (part_metadata config b.step interaction_id))] := rfl
    rw [whole]
    simp [thought,intercalate_eq_join_iff]
  · simp [streamedPieces,thought]

theorem convert_items {result : GenerateResult} {generated : Nat} (complete : (convert config generated response aliases).2 = .ok result)
    {streams : List StepStream} (steps : streams.map StepStream.step = response.items "steps")
    (brings : ∀ b ∈ streams, b.Brings config) : ∃ items : List Item, streams = items.map fst ∧
      response.items "steps" = items.map (·.1.step) ∧
      (∀ item ∈ items, item.1.Brings config ∧ Reads config (response.text "id") aliases item.1.step item.2) ∧
      result.content = (items.map snd).flatten ∧
      result.finish_reason = finish ((response.text "status").getD "completed") (items.any isCall) ∧
      result.usage = usage (response.index "usage") := by
  rw [convert] at complete
  split at complete
  · cases complete
  · rename_i status hasStatus
    simp only at complete
    rcases read : (steps_content config (response.text "id") aliases generated (response.items "steps")).2 with _ | _
    · rw [read] at complete
      cases complete
    · rw [read] at complete
      cases complete
      obtain ⟨each,reads,rfl⟩ := steps_content_eq _ read
      rw [← steps,forall₂_map_left_iff] at reads
      have firsts : (streams.zip each).map fst = streams := map_fst_zip (le_of_eq reads.length_eq)
      have seconds : (streams.zip each).map snd = each := map_snd_zip (le_of_eq reads.length_eq.symm)
      have known : ∀ item ∈ streams.zip each,
          item.1.Brings config ∧ Reads config (response.text "id") aliases item.1.step item.2 := by
        intro item mem
        exact ⟨brings item.1 (of_mem_zip mem).1,(List.forall₂_iff_zip.mp reads).2 mem⟩
      refine ⟨streams.zip each,firsts.symm,?_,known,by rw [seconds],?_,rfl⟩
      · rw [← steps,← firsts,map_map,firsts]
        rfl
      · have calls : each.flatten.any isFunction = (streams.zip each).any isCall := by
          rw [any_flatten,← seconds,any_map,seconds,Bool.eq_iff_iff,any_eq_true,any_eq_true]
          refine exists_congr fun item => and_congr_right fun mem => ?_
          exact Bool.eq_iff_iff.mp ((known item mem).1.complete (known item mem).2).2
        show finish status (each.flatten.any isFunction) = _
        rw [calls,hasStatus]
        rfl

/-- The content of the streamed response is that of the complete response, and so are the finish reason and the usage, if and
    only if no thought has several texts and no two sources of different blocks differ under one key. -/
theorem steps_complete_streamed_agree {result : GenerateResult} {generated : Nat}
    (complete : (convert config generated response aliases).2 = .ok result) {streams : List StepStream}
    (steps : streams.map StepStream.step = response.items "steps") (brings : ∀ b ∈ streams, b.Brings config)
    (streamed : List.Forall₂ (fun (b : StepStream) (events : Events) => b.Streams (events.map fst)) streams segments)
    (isCreated : IsCreated response created.1) (isCompleted : IsCompleted response completed.1)
    (rest : List (ParseResult JsonValue)) :
    (∃ content metadata,
      accumulate (told config include_raw aliases (chunksOf (created :: segments.flatten ++ [completed]) ++ rest)) = .ok content ∧
      SameContent config (response.text "id") aliases (response.items "steps") result.content content ∧
      (told config include_raw aliases (chunksOf (created :: segments.flatten ++ [completed]) ++ rest)).getLast? =
        some (.Finish result.finish_reason result.usage metadata)) ↔
      SingleSummaries (response.items "steps") ∧ SourcesByKey config (response.items "steps") := by
  obtain ⟨items,rfl,stepsAre,known,flat,ends,used⟩ := convert_items complete steps brings
  rw [forall₂_map_left_iff] at streamed
  obtain ⟨told_,found,whole,alike,cited,cites,metadata,last⟩ :=
    interaction_told include_raw isCreated isCompleted known streamed rest
  rw [stepsAre,whole,last,← ends,← used]
  have filed : pieces told_.flatten = items.flatMap fun item => streamedPieces config item.1.step (response.text "id") item.2 := by
    rw [pieces_flatten]
    exact (flatMap_of_forall₂ (alike.imp fun _ _ same => same.2.symm)).symm
  have complete_ : pieces result.content = items.flatMap fun item => pieces item.2 := by
    rw [flat,pieces_flatten,flatMap_map]
  have sourced : (∀ source, source ∈ (sources told_.flatten).map erased ↔ source ∈ (sources result.content).map erased) ↔
      SourcesByKey config (items.map (·.1.step)) := by
    have streamedAre : (sources told_.flatten).map erased =
        distinct [] ((items.map (·.1.step)).flatMap (stepGroups config)).flatten := by
      have erasedAre : (fresh [] found).2.map erased = (fresh [] (found.map erased)).2 := by rw [fresh_erased]
      have grouped : (items.flatMap fun item => stepCites config item.1.step) =
          ((items.map (·.1.step)).flatMap (stepGroups config)).flatten := by
        simp only [stepCites,← flatMap_id,flatMap_assoc,flatMap_map]
      rw [cited,distinct_eq_fresh,erasedAre,cites,grouped]
    have completeAre : (sources result.content).map erased =
        ((items.map (·.1.step)).flatMap (stepGroups config)).flatMap (distinct []) := by
      rw [flat,sources_flatten,flatMap_map,map_flatMap,flatMap_map,flatMap_assoc]
      exact flatMap_congr fun item member => ((known item member).1.complete (known item member).2).1
    rw [streamedAre,completeAre,distinct_groups_iff,SourcesByKey,flatMap_assoc]
    rfl
  have summarized : pieces told_.flatten = pieces result.content ↔ SingleSummaries (items.map (·.1.step)) := by
    rw [filed,complete_,eq_comm,flatMap_eq_iff items fun item member => (StepStream.Brings.pieces_same_iff (known item member).2).1,
      SingleSummaries,forall_mem_map]
    exact forall₂_congr fun item member => (StepStream.Brings.pieces_same_iff (known item member).2).2
  constructor
  · rintro ⟨content,-,isContent,⟨⟨each,segments,-,isFlat,isTold,same⟩,sameSources⟩,-⟩
    cases isContent
    refine ⟨summarized.mp ?_,sourced.mp sameSources⟩
    rw [isFlat,isTold,pieces_flatten,pieces_flatten]
    exact (flatMap_of_forall₂ (same.imp fun _ _ same => same.2.symm)).symm
  · rintro ⟨single,byKey⟩
    refine ⟨_,metadata,rfl,⟨⟨items.map snd,told_,?_,flat,rfl,?_⟩,sourced.mpr byKey⟩,rfl⟩
    · rw [forall₂_map_left_iff,forall₂_map_right_iff]
      exact List.forall₂_same.mpr fun item member => (known item member).2
    · rw [forall₂_map_left_iff]
      have unsplit : ∀ item ∈ items, pieces item.2 = streamedPieces config item.1.step (response.text "id") item.2 :=
        fun item member => (StepStream.Brings.pieces_same_iff (known item member).2).2.mpr
          (single item.1.step (mem_map_of_mem member))
      exact ((forall₂_and_left _ _).mpr ⟨unsplit,alike⟩).imp fun item segment same => ⟨same.2.1,same.2.2.trans same.1.symm⟩

end

end

def oslo : JsonValue := .object [("city",.string "Oslo")]

def osloConfig : Config where
  options_key := "google"
  to_custom := []
  primitives := ⟨fun _ => ['0'],id,fun _ data => data,fun _ => "",fun _ => none⟩
  grounding_chunk _ := none
  decode_base64 _ := .ok []
  generate_id n := "id-" ++ toString n
  name := "google"
  parse_url := some
  parse_json text := if text = "\x7b\"city\":\"Oslo\"\x7d" then some oslo else none

def stringMember (key text : String) : String × JsonValue := (key,.string text)

def stepEvent (kind : String) (index : UInt64) (fields : JsonObject) : JsonValue × JsonValue :=
  (.object (stringMember "event_type" kind :: ("index",.number (.PosInt index)) :: fields),.null)

def textBlock (text : String) : JsonValue := .object [stringMember "type" "text",stringMember "text" text]

def outputStream : StepStream :=
  ⟨0,.object [stringMember "type" "model_output",("content",.array [textBlock "It rains."])],
    .object [stringMember "type" "model_output"],[textBlock "It ",textBlock "rains."]⟩

def callMembers : JsonObject := [stringMember "type" "function_call",stringMember "id" "a",stringMember "name" "weather"]

def callStream : StepStream :=
  ⟨1,.object (callMembers ++ [("arguments",oslo)]),.object callMembers,
    ["\x7b\"city\":","\"Oslo\"\x7d"].map fun text => .object [stringMember "type" "arguments_delta",stringMember "arguments" text]⟩

def stepEvents (b : StepStream) (index : UInt64) : Events :=
  stepEvent "step.start" index [("step",b.started)] :: b.deltas.map (fun delta => stepEvent "step.delta" index [("delta",delta)]) ++
    [stepEvent "step.stop" index []]

def answerOf (steps : List JsonValue) : JsonValue :=
  .object [stringMember "id" "i",stringMember "status" "completed",("steps",.array steps)]

def interactionEvent (kind : String) (response : JsonValue) : JsonValue × JsonValue :=
  (.object [stringMember "event_type" kind,("interaction",response)],.null)

def interactionChunks (response : JsonValue) (segments : List Events) : List (ParseResult JsonValue) :=
  chunksOf (interactionEvent "interaction.created" response :: segments.flatten ++
    [interactionEvent "interaction.completed" response])

theorem stepEvents_streams (b : StepStream) (index : UInt64) (same : b.index = index.toNat) :
    b.Streams ((stepEvents b index).map fst) := by
  refine ⟨(stepEvent "step.start" index [("step",b.started)]).1,
    b.deltas.map (fun delta => (stepEvent "step.delta" index [("delta",delta)]).1),(stepEvent "step.stop" index []).1,?_,?_,?_,?_⟩
  · simp [stepEvents,map_append,map_map,Function.comp_def]
  · exact ⟨⟨rfl,same ▸ rfl⟩,rfl⟩
  · rw [forall₂_map_left_iff]
    exact List.forall₂_same.mpr fun delta _ => ⟨⟨rfl,same ▸ rfl⟩,rfl⟩
  · exact ⟨rfl,same ▸ rfl⟩

theorem outputStream_brings : outputStream.Brings osloConfig := by
  refine ⟨⟨_,rfl⟩,"model_output",rfl,rfl,?_⟩
  rw [if_pos rfl]
  refine ⟨fun delta mem => .inr ?_,[⟨textBlock "It rains.",none,[textBlock "It ",textBlock "rains."]⟩],?_,pairwise_singleton _ _,rfl,rfl,
    by decide⟩
  · revert delta
    decide
  simp only [forall_mem_cons,not_mem_nil,false_implies,implies_true,and_true]
  exact .inl ⟨by decide,by simp,by decide,by decide,by decide⟩

theorem callStream_brings : callStream.Brings osloConfig := by
  refine ⟨⟨_,rfl⟩,"function_call",rfl,rfl,?_⟩
  rw [if_neg (by decide),if_neg (by decide),if_pos rfl]
  refine ⟨fun delta member => .inr ?_,fun key other => ?_,?_⟩
  · revert delta
    decide
  · show (callMembers ++ [("arguments",oslo)]).lookup key = callMembers.lookup key
    have absent : key ≠ "arguments" := by simpa using other
    have missing : (key == "arguments") = false := by simpa using absent
    rw [lookup_append,lookup_cons,missing]
    exact Option.or_none
  · rw [if_neg (by decide)]
    exact ⟨oslo,rfl,by decide⟩

/-- A text in two pieces and a call whose arguments are streamed in two pieces. -/
theorem steps_complete_streamed_agree_rain : ∃ result,
    (convert osloConfig 0 (answerOf [outputStream.step,callStream.step]) []).2 = .ok result ∧
      ∃ content metadata, accumulate (told osloConfig false [] (interactionChunks (answerOf [outputStream.step,callStream.step])
        [stepEvents outputStream 0,stepEvents callStream 1] ++ [])) = .ok content ∧
      SameContent osloConfig (some "i") [] [outputStream.step,callStream.step] result.content content ∧
      (told osloConfig false [] (interactionChunks (answerOf [outputStream.step,callStream.step])
        [stepEvents outputStream 0,stepEvents callStream 1] ++ [])).getLast? = some (.Finish result.finish_reason result.usage metadata) := by
  refine ⟨_,rfl,(steps_complete_streamed_agree false (show (convert osloConfig 0 (answerOf [outputStream.step,callStream.step]) []).2 =
    .ok _ from rfl) (show [outputStream,callStream].map StepStream.step = _ from rfl) ?_ ?_ ?_ ?_ []).mpr ⟨?_,?_⟩⟩
  · simp [outputStream_brings,callStream_brings]
  · exact .cons (stepEvents_streams _ 0 rfl) (.cons (stepEvents_streams _ 1 rfl) .nil)
  · exact ⟨rfl,rfl⟩
  · exact ⟨"interaction.completed",_,rfl,by decide,rfl,rfl,rfl,by decide⟩
  · show ∀ step ∈ [outputStream.step,callStream.step], _
    decide
  · show ∀ a ∈ [outputStream.step,callStream.step].flatMap (stepSources osloConfig), _
    decide

def streamedContent (response : JsonValue) (segments : List Events) : Except Ferrin.Error (List Content) :=
  accumulate (told osloConfig false [] (interactionChunks response segments))

def completeContent (response : JsonValue) : Except ProviderError (List Content) :=
  (convert osloConfig 0 response []).2.map (·.content)

def wholeStream (members : JsonObject) : StepStream := ⟨0,.object members,.object members,[]⟩

def thoughtStream : StepStream :=
  wholeStream [stringMember "type" "thought",("summary",.array [textBlock "a",textBlock "b"])]

def citing (title : String) : JsonValue :=
  .object [stringMember "type" "text",stringMember "text" "It rains.",("annotations",.array
    [.object [stringMember "type" "url_citation",stringMember "url" "https://rain",stringMember "title" title]])]

def citingStream : StepStream :=
  wholeStream [stringMember "type" "model_output",("content",.array [citing "Rain",citing "Weather"])]

/-- The lines of a thought are streamed as one line, and of two citations of a page only the first is streamed. -/
theorem summary_lines_lost :
    (completeContent (answerOf [thoughtStream.step])).map pieces =
        .ok [.Reasoning "a\nb" (some (part_metadata osloConfig thoughtStream.step (some "i")))] ∧
      (streamedContent (answerOf [thoughtStream.step]) [stepEvents thoughtStream 0]).map pieces =
        .ok [.Reasoning "ab" (some (part_metadata osloConfig thoughtStream.step (some "i")))] ∧
      (completeContent (answerOf [citingStream.step])).map (fun content => (sources content).map erased) =
        .ok [.Url "" "https://rain" (some "Rain") none,.Url "" "https://rain" (some "Weather") none] ∧
      (streamedContent (answerOf [citingStream.step]) [stepEvents citingStream 0]).map (fun content => (sources content).map erased) =
        .ok [.Url "" "https://rain" (some "Rain") none] := by
  decide

end Ferrin.Google.Interactions
