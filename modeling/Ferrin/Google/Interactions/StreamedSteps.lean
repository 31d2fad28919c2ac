import Ferrin.Google.Interactions.StepStream
import Ferrin.Google.Interactions.Heard

/-!
What a streamed step adds to the content: that of the complete step, and its
sources unless they were shown before.
-/
namespace Ferrin.Google.Interactions
open Ferrin.Stream Ferrin.StreamText List State String JsonValue EventsLead Accumulation Heard
open JsonValue (object)
open String (join)
open Option (isSome_iff_exists)

/-! ### What a step adds -/

def blockCites (config : Config) (block : JsonValue) : List Source := if isTextBlock block then cites config block else []

def stepGroups (config : Config) (step : JsonValue) : List (List Source) :=
  match step.text "type" with
  | some kind =>
    if kind = "model_output" then (step.items "content").map (blockCites config)
    else if isResult kind then [cites config step] else []
  | none => []

def stepCites (config : Config) (step : JsonValue) : List Source := (stepGroups config step).flatten

def streamedPieces (config : Config) (step : JsonValue) (interaction_id : Option String) (content : List Content) : List Content :=
  if step.text "type" = some "thought" then
    [.Reasoning (join (summary step)) (some (part_metadata config step interaction_id))]
  else pieces content

def Adds (config : Config) (include_raw : Bool) (s : State) (step : JsonValue) (events : Events) (content : List Content) : Prop :=
  ∀ before, ∃ segment found generated,
    EventsLead config include_raw s ⟨before,.empty⟩ events
      (s.between (fresh s.emitted_sources found).1 generated (s.function || step.text "type" = some "function_call"))
      ⟨before ++ segment,.empty⟩ ∧
    said segment = said content ∧ pieces segment = streamedPieces config step s.interaction_id content ∧
    sources segment = (fresh s.emitted_sources found).2 ∧ Cites found (stepCites config step)

variable {value delta : JsonValue} {key text : String} {without : List String}

theorem text_iff : value.text key = some text ↔ value.index key = .string text := by
  rw [JsonValue.text]
  cases value.index key <;> simp [as_str]

theorem text_get (known : value.text key = some text) : value.get key = some (.string text) := by
  rw [text_iff,index] at known
  cases found : value.get key with
  | none => rw [found] at known; cases known
  | some => rw [found] at known; exact congrArg some known

theorem IsOwn.apart {kind : String} (own : IsOwn kind without delta)
    (known : key ∈ without) (members : JsonObject) : (adding (.object members) delta).get key = (object members).get key := by
  obtain ⟨-,fields,rfl,apart⟩ := own
  have absent : (fields.filter (·.1 ≠ "type")).lookup key = none := by
    refine List.lookup_eq_none_iff.mpr fun field mem => ?_
    have other : key ≠ field.1 := fun same => apart field (mem_of_mem_filter mem) (same ▸ known)
    simpa using other
  exact JsonObject.lookup_extend _ absent members

section
variable {config : Config} {include_raw : Bool} {s : State} {b : StepStream} {kind : String}

variable {step a : JsonValue} {seen : List String} {generated index generated' : Nat} {function : Bool}
  {opened : OpenStep} {content : List Content} {events : Events}

theorem whole_content (config : Config) (whole : isWhole kind = true) (typed : step.text "type" = some kind)
    (called : isBuiltinCall kind → (step.text "id").isSome) (answered : isResult kind → (step.text "call_id").isSome)
    (interaction_id : Option String) (aliases : List (String × String)) : ∃ c : Content, Heard.isShown c = true ∧
      textOf c = none ∧ sourceOf c = none ∧ pieceOf c = some c ∧ isFunction c = false ∧ ∀ generated, ∃ found : List Source,
        (Interactions.step config generated step interaction_id aliases).2 = .ok (c :: found.map .Source) ∧
        found.map erased = (stepGroups config step).flatMap (distinct []) := by
  have kind_ : (step.text "type").getD "" = kind := by rw [typed]; rfl
  simp only [isWhole,Bool.or_eq_true,decide_eq_true_eq] at whole
  obtain ((rfl | rfl) | isCall) | isAnswer := whole
  · refine ⟨.Custom "google.processing_call" (some (part_metadata config step interaction_id)),rfl,rfl,rfl,rfl,rfl,
      fun generated => ⟨[],?_,?_⟩⟩
    · simp [Interactions.step,kind_]
    · simp [stepGroups,typed,isResult]
  · refine ⟨.Custom "google.processing_result" (some (part_metadata config step interaction_id)),rfl,rfl,rfl,rfl,rfl,
      fun generated => ⟨[],?_,?_⟩⟩
    · simp [Interactions.step,kind_]
    · simp [stepGroups,typed,isResult]
  · obtain ⟨id,known⟩ := isSome_iff_exists.mp (called isCall)
    have apart : kind ≠ "model_output" ∧ kind ≠ "thought" ∧ kind ≠ "processing_call" ∧ kind ≠ "processing_result" ∧
        kind ≠ "function_call" ∧ isResult kind = false := by
      simp only [isBuiltinCall,mem_cons,not_mem_nil,or_false,decide_eq_true_eq] at isCall
      obtain rfl | rfl | rfl | rfl | rfl | rfl := isCall <;> decide
    refine ⟨.ToolCall ⟨id,alias_ aliases (wire_name step kind "_call"),to_string config.toConfig (call_arguments step),true,
      kind = "mcp_server_tool_call",some (part_metadata config step interaction_id)⟩,rfl,rfl,rfl,rfl,rfl,fun generated => ⟨[],?_,?_⟩⟩
    · simp [Interactions.step,kind_,apart,isCall,call,id_or_generated,known]
    · simp [stepGroups,typed,apart]
  · obtain ⟨id,known⟩ := isSome_iff_exists.mp (answered isAnswer)
    have apart : kind ≠ "model_output" ∧ kind ≠ "thought" ∧ kind ≠ "processing_call" ∧ kind ≠ "processing_result" ∧
        kind ≠ "function_call" ∧ isBuiltinCall kind = false := by
      simp only [isResult,mem_cons,not_mem_nil,or_false,decide_eq_true_eq] at isAnswer
      obtain rfl | rfl | rfl | rfl | rfl | rfl := isAnswer <;> decide
    refine ⟨.ToolResult ⟨id,alias_ aliases (wire_name step kind "_result"),step.index "result",step.index "is_error" = .bool true,
      false,kind = "mcp_server_tool_result",some (part_metadata config step interaction_id)⟩,rfl,rfl,rfl,rfl,rfl,fun generated => ?_⟩
    obtain ⟨found,extracted,same⟩ := extract_eq config generated step
    refine ⟨found,?_,by simpa [stepGroups,typed,apart,isAnswer] using same⟩
    simp [Interactions.step,kind_,apart,isAnswer,result,id_or_generated,known,extracted]

def isStepKind (kind : String) : Bool :=
  kind = "model_output" || kind = "thought" || kind = "function_call" || isWhole kind

theorem step_kind_apart (known : isStepKind kind = true) : kind ≠ "text" ∧ kind ≠ "thought_summary" ∧ kind ≠ "thought_signature" ∧
    kind ≠ "arguments_delta" ∧ isMedia kind = false ∧ State.isAnnotation kind = false := by
  simp only [isStepKind,isWhole,isBuiltinCall,isResult,Bool.or_eq_true,decide_eq_true_eq,mem_cons,not_mem_nil,
    or_false] at known
  obtain ((rfl | rfl) | rfl) | ((rfl | rfl) | rfl | rfl | rfl | rfl | rfl | rfl) | rfl | rfl | rfl | rfl | rfl | rfl := known <;>
    decide

theorem whole_apart (whole : isWhole kind = true) : kind ≠ "model_output" ∧ kind ≠ "thought" ∧ kind ≠ "function_call" := by
  simp only [isWhole,isBuiltinCall,isResult,Bool.or_eq_true,decide_eq_true_eq,mem_cons,not_mem_nil,or_false] at whole
  obtain ((rfl | rfl) | rfl | rfl | rfl | rfl | rfl | rfl) | rfl | rfl | rfl | rfl | rfl | rfl := whole <;> decide

theorem feed_own (known : isStepKind kind = true) (typed : opened.step.text "type" = some kind)
    (own : IsOwn kind without delta) :
    (s.during seen generated function index opened).feed config index opened delta kind =
      (s.during seen generated function index { opened with step := State.merge opened.step delta },.ok []) := by
  obtain ⟨text,summary,signature,arguments,media,annotated⟩ := step_kind_apart known
  have same : delta.index "type" = opened.step.index "type" := by rw [text_iff.mp typed,text_iff.mp own.1]
  simp [feed,text,summary,signature,arguments,media,annotated,same,State.during,update]

theorem text_congr {b : JsonValue} (same : a.get key = b.get key) : a.text key = b.text key := by
  rw [JsonValue.text,JsonValue.text,index,index,same]

theorem noted_object (members : JsonObject) (delta : JsonValue) : ∃ later, noted (.object members) delta = .object later ∧
    (object later).get "type" = (object members).get "type" := by
  have assigned (value : JsonValue) : ∃ later, (object members).assign "signature" value = .object later ∧
      (object later).get "type" = (object members).get "type" :=
    ⟨_,rfl,(get_assign members "signature" "type" value).trans (if_neg (by decide))⟩
  unfold noted
  split
  · exact assigned _
  · split
    · exact assigned _
    · exact ⟨members,rfl,rfl⟩
  · exact ⟨members,rfl,rfl⟩
  · cases delta with
    | object =>
      refine ⟨_,rfl,JsonObject.lookup_extend _ ?_ members⟩
      refine List.lookup_eq_none_iff.mpr fun field mem => ?_
      have other : field.1 ≠ "type" := of_decide_eq_true (List.mem_filter.mp mem).2
      simpa using other.symm
    | _ => exact ⟨members,rfl,rfl⟩

theorem brought_object (deltas : List JsonValue) : ∀ members : JsonObject, ∃ later, brought (.object members) deltas = .object later ∧
    (object later).get "type" = (object members).get "type" := by
  induction deltas with
  | nil => exact fun members => ⟨members,rfl,rfl⟩
  | cons delta _ ih =>
    intro members
    obtain ⟨next,first,kept⟩ := noted_object members delta
    obtain ⟨last,others,same⟩ := ih next
    exact ⟨last,by rw [brought,foldl_cons,first]; exact others,same.trans kept⟩

theorem brought_type {started : JsonValue} (isObject : ∃ members, started = .object members) (deltas : List JsonValue) :
    (brought started deltas).text "type" = started.text "type" := by
  obtain ⟨members,rfl⟩ := isObject
  obtain ⟨_,same,kept⟩ := brought_object deltas members
  rw [same]
  exact text_congr kept

theorem brought_snoc (started : JsonValue) (deltas : List JsonValue) (delta : JsonValue) :
    brought started (deltas ++ [delta]) = noted (brought started deltas) delta := by
  simp [brought]

theorem IsOwn.noted (known : isStepKind kind = true) (own : IsOwn kind without delta)
    (step : JsonValue) : Interactions.noted step delta = adding step delta := by
  obtain ⟨-,_,_,_,-⟩ := step_kind_apart known
  unfold Interactions.noted
  rw [own.1]
  split <;> simp_all

theorem whole_parts {c : Content} (noText : textOf c = none) (noSource : sourceOf c = none) (isPiece : pieceOf c = some c)
    (found : List Source) : said (c :: found.map .Source) = "" ∧ pieces (c :: found.map .Source) = [c] ∧
      sources (c :: found.map .Source) = found := by
  refine ⟨?_,?_,?_⟩
  · rw [said,filterMap_cons_none noText]
    exact said_found found
  · rw [pieces,filterMap_cons_some isPiece]
    exact congrArg (c :: ·) (pieces_found found)
  · rw [sources,filterMap_cons_none noSource]
    exact sources_found found

theorem adds_whole (whole : isWhole kind = true) (typed : b.step.text "type" = some kind) (begins : b.started.text "type" = some kind)
    (isObject : ∃ members, b.started = .object members) (brings : BringsWhole kind b.step b.started b.deltas)
    (idle : s.open_steps = [])
    (complete : (Interactions.step config generated' b.step s.interaction_id s.aliases).2 = .ok content)
    (streams : b.Streams (events.map Prod.fst)) : Adds config include_raw s b.step events content := by
  obtain ⟨-,called,answered,own,same⟩ := brings
  obtain ⟨c,isShown,noText,noSource,isPiece,-,mapped⟩ := whole_content config whole typed called answered s.interaction_id s.aliases
  intro before
  obtain ⟨notOutput,notThought,notFunction⟩ := whole_apart whole
  have known : isStepKind kind = true := by simp [isStepKind,whole]
  have stepType (deltas : List JsonValue) : (brought b.started deltas).text "type" = some kind :=
    (brought_type isObject deltas).trans begins
  obtain ⟨found,read,same'⟩ := mapped s.generated
  obtain ⟨found',read',-⟩ := mapped generated'
  obtain rfl : content = c :: found'.map .Source := Except.ok.inj (complete.symm.trans read')
  obtain ⟨nothing',only',-⟩ := whole_parts noText noSource isPiece found'
  obtain ⟨nothing,only,cited⟩ := whole_parts noText noSource isPiece found
  let contents := c :: found.map Content.Source
  let heard := contents.foldl Heard.hear (s.emitted_sources,Heard.nothing)
  have shown : ∀ c ∈ contents, Heard.isShown c = true := List.forall_mem_cons.mpr ⟨isShown,by simp [Heard.isShown]⟩
  have silent : ∀ c ∈ contents, textOf c = none := List.forall_mem_cons.mpr ⟨noText,by simp [textOf]⟩
  obtain ⟨keys,tells⟩ := Heard.tells_nothing.all contents s.emitted_sources
  obtain ⟨seen,after⟩ := contents_heard (step_id b.index) contents shown s.emitted_sources .nothing before
  rw [Heard.tells_nothing.acc rfl,tells.acc (hear_silent contents silent _ _),
    show before ++ Heard.nothing.content = before from append_nil before] at after
  let opened (deltas : List JsonValue) : OpenStep := ⟨brought b.started deltas,step_id b.index,false,""⟩
  let generated := (Interactions.step config s.generated b.step s.interaction_id s.aliases).1
  have leads : EventsLead config include_raw s ⟨before,.empty⟩ events (s.between (fresh s.emitted_sources found).1 generated s.function)
      ⟨before ++ heard.2.content,.empty⟩ := by
    refine streams.lead (fun deltas => s.during s.emitted_sources s.generated s.function b.index (opened deltas))
      (fun _ => ⟨before,.empty⟩) ?_ ?_ ?_
    · intro event isStart brings
      refine start [] idle isStart brings begins ?_ rfl
      simp [State.begin_step,notOutput,notThought,notFunction,State.insert,State.during,idle,opened,brought]
    · intro earlier delta others split event isDelta brings
      have ownDelta := own delta (by simp [split])
      refine EventsLead.delta [] isDelta brings ownDelta.1 ?_ rfl
      rw [feed_own known (stepType earlier) ownDelta,ownDelta.merge (by simp)]
      simp only [opened,brought_snoc,ownDelta.noted known]
    · intro event isStop
      have whole : Interactions.step config s.generated (brought b.started b.deltas) s.interaction_id s.aliases =
          (generated,.ok contents) := by
        rw [← step_same config s.generated same]
        exact Prod.ext rfl read
      have keys : (retain s.emitted_sources (contents.flatMap (content_parts · (step_id b.index)))).1 =
          (fresh s.emitted_sources found).1 := by
        rw [seen,keys]
        simp only [contents,cited]
      rw [← keys]
      refine stop _ isStop ?_ after
      have closes : ((opened b.deltas).step.text "type").getD "" = kind := by rw [stepType]; rfl
      simp only [close,closes,if_neg notOutput,if_neg notThought,if_neg notFunction]
      have again : Interactions.step config (s.between s.emitted_sources s.generated s.function).generated (opened b.deltas).step
          (s.between s.emitted_sources s.generated s.function).interaction_id
          (s.between s.emitted_sources s.generated s.function).aliases = (generated,.ok contents) := whole
      rw [again]
      rfl
  refine ⟨heard.2.content,found,generated,?_,?_,?_,?_,.of_groups same'⟩
  · simpa [typed,notFunction] using leads
  · rw [tells.said,nothing']
    simpa [contents] using nothing
  · rw [tells.pieces]
    simp only [contents,nil_append]
    rw [streamedPieces,typed,if_neg (by simpa using notThought),only,only']
  · rw [tells.sources]
    simp only [contents,nil_append,cited]

def functionCall (config : Config) (step : JsonValue) (interaction_id : Option String) (aliases : List (String × String)) : ToolCall :=
  ⟨(step.text "id").getD "",alias_ aliases (wire_name step "function_call" "_call"),to_string config.toConfig (call_arguments step),
    false,false,some (part_metadata config step interaction_id)⟩

theorem given_of_valid (valid : function_call_error step = none) :
    (step.text "id").isSome ∧ (step.text "name").isSome := by
  unfold function_call_error at valid
  split at valid
  · cases valid
  · rename_i given
    cases id : step.text "id" <;> cases name : step.text "name" <;> simp [id,name,nonempty] at given ⊢

theorem function_step (config : Config) (typed : step.text "type" = some "function_call") (valid : function_call_error step = none)
    (generated : Nat) (interaction_id : Option String) (aliases : List (String × String)) :
    Interactions.step config generated step interaction_id aliases =
      (generated,.ok [.ToolCall (functionCall config step interaction_id aliases)]) := by
  have kind : (step.text "type").getD "" = "function_call" := by rw [typed]; rfl
  obtain ⟨_,known⟩ := isSome_iff_exists.mp (given_of_valid valid).1
  simp [Interactions.step,kind,valid,call,id_or_generated,known,functionCall,isBuiltinCall]

theorem function_same {b : JsonValue} (valid : function_call_error a = none) (id : b.text "id" = a.text "id")
    (name : b.text "name" = a.text "name")
    (arguments : b.get "arguments" = a.get "arguments" ∨ b.get "arguments" = some (call_arguments a)) :
    function_call_error b = none ∧ call_arguments b = call_arguments a := by
  unfold function_call_error at valid ⊢
  rw [id,name]
  split at valid
  · cases valid
  · rename_i given
    rw [if_neg given]
    obtain same | same := arguments
    · exact ⟨by rw [same]; exact valid,by rw [call_arguments,call_arguments,same]⟩
    · have isObject : ∃ members, call_arguments a = .object members := by
        unfold call_arguments
        split at valid <;> rename_i found <;> simp_all
      obtain ⟨_,isObject⟩ := isObject
      rw [same,isObject]
      refine ⟨rfl,?_⟩
      rw [call_arguments,same,isObject]

theorem valid_of_complete (typed : step.text "type" = some "function_call")
    {interaction_id : Option String} {aliases : List (String × String)}
    (complete : (Interactions.step config generated step interaction_id aliases).2 = .ok content) :
    function_call_error step = none := by
  have kind : (step.text "type").getD "" = "function_call" := by rw [typed]; rfl
  cases invalid : function_call_error step with
  | none => rfl
  | some => simp [Interactions.step,kind,isBuiltinCall,invalid] at complete

def Keeps (key : String) (delta : JsonValue) : Prop :=
  ∀ members, (noted (.object members) delta).get key = (object members).get key

theorem brought_keeps (deltas : List JsonValue) (keeps : ∀ delta ∈ deltas, Keeps key delta) :
    ∀ members : JsonObject, (brought (.object members) deltas).get key = (object members).get key := by
  induction deltas with
  | nil => exact fun _ => rfl
  | cons delta _ ih =>
    intro members
    obtain ⟨next,first,-⟩ := noted_object members delta
    have here := keeps delta (by simp) members
    rw [first] at here
    rw [brought,foldl_cons,first]
    exact (ih (fun delta mem => keeps delta (by simp [mem])) next).trans here

theorem IsOwn.keeps (known : isStepKind kind = true) (own : IsOwn kind without delta)
    (absent : key ∈ without) : Keeps key delta := fun members => by
  rw [own.noted known,own.apart absent]

theorem argumentsPiece_keeps (piece : (argumentsPiece delta).isSome) (other : key ≠ "signature") :
    Keeps key delta := by
  intro members
  have typed : delta.text "type" = some "arguments_delta" := by
    unfold argumentsPiece at piece
    split at piece
    · assumption
    · cases piece
  simp only [noted,typed]
  split
  · rw [get_assign,if_neg other]
  · rfl

theorem feed_arguments
    (typed : opened.step.text "type" = some "function_call") (piece : (argumentsPiece delta).isSome) :
    delta.text "type" = some "arguments_delta" ∧ ∃ part, (∀ source, part ≠ StreamPart.Source source) ∧
      Accumulation.silent part = true ∧
      (s.during seen generated function index opened).feed config index opened delta "arguments_delta" =
        (s.during seen generated function index { opened with
          step := noted opened.step delta,arguments := opened.arguments ++ (argumentsPiece delta).getD "" },.ok [part]) := by
  unfold argumentsPiece at piece ⊢
  split at piece
  · rename_i isArguments
    obtain ⟨text,known⟩ := isSome_iff_exists.mp piece
    refine ⟨isArguments,.ToolInputDelta ((opened.step.text "id").getD "") text none,by simp,rfl,?_⟩
    simp only [feed,reduceEq,false_and,if_false,typed,true_and,if_true,arguments_delta,text_get known,known,
      noted,isArguments]
    cases delta.get "signature" <;> simp [update,State.during]
  · cases piece

theorem final_step (brings : BringsFunction config b.step b.started b.deltas) (isObject : ∃ members, b.started = .object members)
    (typed : b.step.text "type" = some "function_call") (valid : function_call_error b.step = none) (id : PartId) : ∃ arguments,
    State.final_arguments config ⟨brought b.started b.deltas,id,false,join (b.deltas.filterMap argumentsPiece)⟩ = some arguments ∧
      let last := (brought b.started b.deltas).assign "arguments" arguments
      function_call_error last = none ∧ last.text "type" = some "function_call" ∧ last.text "id" = b.step.text "id" ∧
        ∀ interaction_id aliases, functionCall config last interaction_id aliases = functionCall config b.step interaction_id aliases := by
  obtain ⟨-,same,arguments⟩ := brings
  obtain ⟨members,started⟩ := isObject
  obtain ⟨later,isObject,-⟩ := brought_object b.deltas members
  rw [← started] at isObject
  rw [isObject] at same arguments ⊢
  have others (value : JsonValue) (key : String) (other : key ≠ "arguments") :
      ((object later).assign "arguments" value).get key = b.step.get key := by
    rw [get_assign,if_neg other,same key (by simpa using other)]
  have closes (value : JsonValue) (is : some value = b.step.get "arguments" ∨ value = call_arguments b.step) :
      let last := (object later).assign "arguments" value
      function_call_error last = none ∧ last.text "type" = some "function_call" ∧ last.text "id" = b.step.text "id" ∧
        ∀ interaction_id aliases, functionCall config last interaction_id aliases = functionCall config b.step interaction_id aliases := by
    have assigned : ((object later).assign "arguments" value).get "arguments" = some value := by
      rw [get_assign,if_pos rfl]
    have sameId := text_congr (others value "id" (by decide))
    have sameName := text_congr (others value "name" (by decide))
    obtain ⟨valid',calls⟩ := function_same valid sameId sameName (by
      rw [assigned]
      exact is.imp_right (congrArg some))
    refine ⟨valid',(text_congr (others value "type" (by decide))).trans typed,sameId,fun interaction_id aliases => ?_⟩
    have alike : SameMembers ["arguments"] ((object later).assign "arguments" value) b.step :=
      fun key other => others value key (by simpa using other)
    have metadata := part_metadata_same config alike interaction_id (by decide)
    rw [functionCall,functionCall,calls,metadata,sameId,wire_name,wire_name,sameName]
  split at arguments
  · rename_i nothing
    refine ⟨call_arguments b.step,?_,closes _ (.inr rfl)⟩
    rw [final_arguments,if_pos nothing,call_arguments,call_arguments,arguments]
  · rename_i filled
    obtain ⟨value,given,parsed⟩ := arguments
    refine ⟨value,?_,closes _ (.inl given.symm)⟩
    rw [final_arguments,if_neg filled]
    exact parsed

theorem adds_function (typed : b.step.text "type" = some "function_call") (begins : b.started.text "type" = some "function_call")
    (isObject : ∃ members, b.started = .object members) (brings : BringsFunction config b.step b.started b.deltas)
    (idle : s.open_steps = [])
    (complete : (Interactions.step config generated' b.step s.interaction_id s.aliases).2 = .ok content)
    (streams : b.Streams (events.map Prod.fst)) : Adds config include_raw s b.step events content := by
  obtain ⟨carries,same,arguments⟩ := brings
  have known : isStepKind "function_call" = true := rfl
  have stepType (deltas : List JsonValue) : (brought b.started deltas).text "type" = some "function_call" :=
    (brought_type isObject deltas).trans begins
  have valid := valid_of_complete typed complete
  obtain ⟨members,isStart⟩ := isObject
  have keeps (key : String) (absent : key ∈ ["id","name"]) (other : key ≠ "signature" ∧ key ≠ "arguments") :
      b.started.text key = b.step.text key := by
    refine text_congr ?_
    rw [same key (by simpa using other.2),isStart]
    refine (brought_keeps b.deltas (fun delta mem => ?_) members).symm
    exact (carries delta mem).elim (fun own => own.keeps known absent) (fun piece => argumentsPiece_keeps piece other.1)
  obtain ⟨id,isId⟩ := isSome_iff_exists.mp (given_of_valid valid).1
  obtain ⟨name,isName⟩ := isSome_iff_exists.mp (given_of_valid valid).2
  have startId := (keeps "id" (by simp) (by decide)).trans isId
  have startName := (keeps "name" (by simp) (by decide)).trans isName
  obtain ⟨arguments,final,valid',lastType,lastId,calls⟩ :=
    final_step ⟨carries,same,arguments⟩ ⟨members,isStart⟩ typed valid (step_id b.index)
  have call (generated : Nat) := function_step config lastType valid' generated s.interaction_id s.aliases
  simp only [calls] at call
  obtain rfl : content = [.ToolCall (functionCall config b.step s.interaction_id s.aliases)] := by
    rw [function_step config typed valid] at complete
    exact (Except.ok.inj complete).symm
  let opened (deltas : List JsonValue) : OpenStep :=
    ⟨brought b.started deltas,step_id b.index,false,join (deltas.filterMap argumentsPiece)⟩
  intro before
  have leads : EventsLead config include_raw s ⟨before,.empty⟩ events (s.between s.emitted_sources s.generated true)
      ⟨before ++ [.ToolCall (functionCall config b.step s.interaction_id s.aliases)],.empty⟩ := by
    refine streams.lead (fun deltas => s.during s.emitted_sources s.generated true b.index (opened deltas))
      (fun _ => ⟨before,.empty⟩) ?_ ?_ ?_
    · intro event isStart' brings
      refine start [.ToolInputStart id name false false none
        (some (part_metadata config b.started s.interaction_id))] idle isStart' brings begins ?_ rfl
      simp [State.begin_step,startId,startName,State.insert,State.during,idle,opened,brought]
    · intro earlier delta others split event isDelta brings
      obtain own | piece := carries delta (by simp [split])
      · have noPiece : argumentsPiece delta = none := by simp [argumentsPiece,own.1]
        refine EventsLead.delta [] isDelta brings own.1 ?_ rfl
        rw [feed_own known (stepType earlier) own,own.merge (by simp)]
        simp only [opened,brought_snoc,own.noted known,filterMap_append,filterMap_cons,noPiece,filterMap_nil,
          append_nil]
      · obtain ⟨isArguments,part,uncited,silent,fed⟩ := feed_arguments
          (show (opened earlier).step.text "type" = some "function_call" from stepType earlier) piece
        have shown := retain_uncited (show ∀ other ∈ [part], ∀ source, other ≠ .Source source by simpa using uncited)
          s.emitted_sources
        have leads : EventsLead config include_raw _ ⟨before,.empty⟩ [event] _ ⟨before,.empty⟩ :=
          EventsLead.delta [part] isDelta brings isArguments fed
            (by rw [shown]; exact after_silent (by simpa using silent) _)
        rw [shown] at leads
        have joined : (opened earlier).arguments ++ (argumentsPiece delta).getD "" =
            join ((earlier ++ [delta]).filterMap argumentsPiece) := by
          obtain ⟨text,isText⟩ := isSome_iff_exists.mp piece
          simp [opened,filterMap_append,isText]
        simp only [opened,brought_snoc] at leads joined ⊢
        rw [← joined]
        exact leads
    · intro event isStop
      refine stop [.ToolInputEnd id (some (part_metadata config (brought b.started b.deltas) s.interaction_id)),
        .ToolCall (functionCall config b.step s.interaction_id s.aliases)] isStop ?_ rfl
      have closes : ((opened b.deltas).step.text "type").getD "" = "function_call" := by rw [stepType]; rfl
      simp only [close,closes,reduceEq,if_false,if_true,end_call,opened,final]
      rw [show (s.between s.emitted_sources s.generated true).interaction_id = s.interaction_id from rfl,
        show (s.between s.emitted_sources s.generated true).aliases = s.aliases from rfl,
        show (s.between s.emitted_sources s.generated true).generated = s.generated from rfl,call s.generated]
      simp [lastId,isId,took,between]
  refine ⟨_,[],s.generated,?_,rfl,?_,rfl,fun _ => ?_⟩
  · simpa [typed,fresh] using leads
  · rw [streamedPieces,typed]
    rfl
  · simp [stepCites,stepGroups,typed,isResult,fresh]

/-! #### Thoughts -/

theorem tell_summary (before : List Content) (id : PartId) (metadata : Option ProviderMetadata) (texts : List String) :
    ∀ text, (Accumulation.opened before .reasoning id text metadata []).after (texts.map fun more => .ReasoningDelta id more none) =
      .ok (.opened before .reasoning id (text ++ join texts) metadata []) := by
  induction texts with
  | nil => intro text; rw [join_nil,append_empty]; rfl
  | cons more _ ih =>
    intro text
    have first : (opened before .reasoning id text metadata []).after [.ReasoningDelta id more none] = _ :=
      (after_single ..).trans (opened_delta .reasoning more none)
    rw [map_cons,← singleton_append,after_append,first]
    refine (ih (text ++ more)).trans ?_
    rw [String.join_cons,String.append_assoc]

theorem join_continuedBy (texts pieces : List String) : join (continuedBy texts pieces) = join texts ++ join pieces := by
  unfold continuedBy
  split
  · rename_i none_
    rw [none_,join_nil,append_empty]
  · rcases eq_nil_or_concat texts with rfl | ⟨_,_,rfl⟩
    · simp
    · simp [String.append_assoc]

theorem summaryPiece_type (piece : (summaryPiece delta).isSome) :
    delta.text "type" = some "thought_summary" ∧ summaryPiece delta = (delta.index "content").text "text" := by
  unfold summaryPiece at piece ⊢
  split at piece
  · rename_i isSummary
    exact ⟨isSummary,if_pos isSummary⟩
  · cases piece

theorem adds_thought (typed : b.step.text "type" = some "thought") (begins : b.started.text "type" = some "thought")
    (isObject : ∃ members, b.started = .object members) (brings : BringsThought b.step b.started b.deltas)
    (idle : s.open_steps = [])
    (complete : (Interactions.step config generated' b.step s.interaction_id s.aliases).2 = .ok content)
    (streams : b.Streams (events.map Prod.fst)) : Adds config include_raw s b.step events content := by
  obtain ⟨carries,same,continues⟩ := brings
  have known : isStepKind "thought" = true := rfl
  have stepType (deltas : List JsonValue) : (brought b.started deltas).text "type" = some "thought" :=
    (brought_type isObject deltas).trans begins
  let metadata := some (part_metadata config b.started s.interaction_id)
  let told (deltas : List JsonValue) := join (summary b.started) ++ join (deltas.filterMap summaryPiece)
  let opened (deltas : List JsonValue) : OpenStep := ⟨brought b.started deltas,step_id b.index,false,""⟩
  intro before
  let thought := Content.Reasoning (told b.deltas) (some (part_metadata config b.step s.interaction_id))
  have leads : EventsLead config include_raw s ⟨before,.empty⟩ events (s.between s.emitted_sources s.generated s.function)
      ⟨before ++ [thought],.empty⟩ := by
    refine streams.lead (fun deltas => s.during s.emitted_sources s.generated s.function b.index (opened deltas))
      (fun deltas => .opened before .reasoning (step_id b.index) (told deltas) metadata []) ?_ ?_ ?_
    · intro event isStart brings
      have uncited : ∀ part ∈ StreamPart.ReasoningStart (step_id b.index) metadata ::
          (summary b.started).map fun text => .ReasoningDelta (step_id b.index) text none, ∀ source, part ≠ .Source source := by
        simp
      have shown := retain_uncited uncited s.emitted_sources
      have begun : s.begin_step config b.index b.started "thought" =
          (s.during s.emitted_sources s.generated s.function b.index (opened []),
            .ok (.ReasoningStart (step_id b.index) metadata ::
              (summary b.started).map fun text => .ReasoningDelta (step_id b.index) text none)) := by
        simp [State.begin_step,State.insert,State.during,idle,opened,brought,metadata]
      have first : Accumulation.after ⟨before,.empty⟩ [.ReasoningStart (step_id b.index) metadata] =
          .ok (.opened before .reasoning (step_id b.index) "" metadata []) :=
        (after_single ..).trans (opened_start before .reasoning (step_id b.index) metadata)
      have leads : EventsLead config include_raw s ⟨before,.empty⟩ [event] _
          (.opened before .reasoning (step_id b.index) (told []) metadata []) :=
        start _ idle isStart brings begins begun (by
          rw [shown,← singleton_append,after_append,first]
          refine (tell_summary before (step_id b.index) metadata (summary b.started) "").trans ?_
          simp [told])
      rw [shown] at leads
      exact leads
    · intro earlier delta others split event isDelta brings
      have silent (delta : JsonValue) (noPiece : summaryPiece delta = none) : told (earlier ++ [delta]) = told earlier := by
        simp [told,filterMap_append,noPiece]
      obtain own | piece | isSignature := carries delta (by simp [split])
      · have noPiece : summaryPiece delta = none := by simp [summaryPiece,own.1]
        rw [silent delta noPiece]
        refine EventsLead.delta [] isDelta brings own.1 ?_ rfl
        rw [feed_own known (stepType earlier) own,own.merge (by simp)]
        simp only [opened,brought_snoc,own.noted known]
      · obtain ⟨isSummary,isText⟩ := summaryPiece_type piece
        obtain ⟨text,found⟩ := isSome_iff_exists.mp piece
        have more : told (earlier ++ [delta]) = told earlier ++ text := by
          simp [told,filterMap_append,found,String.append_assoc]
        rw [more]
        refine EventsLead.delta [.ReasoningDelta (step_id b.index) text none] isDelta brings isSummary ?_
          ((after_single ..).trans (opened_delta .reasoning text none))
        have given : ((delta.index "content").text "text").getD "" = text := by rw [← isText,found]; rfl
        simp [feed,opened,stepType,given,brought_snoc,noted,isSummary]
      · have noPiece : summaryPiece delta = none := by simp [summaryPiece,isSignature]
        rw [silent delta noPiece]
        refine EventsLead.delta [] isDelta brings isSignature ?_ rfl
        simp [feed,opened,stepType,brought_snoc,noted,isSignature,update,State.during]
    · intro event isStop
      have sameMetadata : part_metadata config (brought b.started b.deltas) s.interaction_id =
          part_metadata config b.step s.interaction_id :=
        (part_metadata_same config same s.interaction_id (by decide)).symm
      refine stop [.ReasoningEnd (step_id b.index) (some (part_metadata config b.step s.interaction_id))]
        isStop ?_ ((after_single ..).trans (opened_end .reasoning (some (part_metadata config b.step s.interaction_id))))
      have closes : ((opened b.deltas).step.text "type").getD "" = "thought" := by rw [stepType]; rfl
      simp only [close,closes,reduceEq,if_false,if_true]
      rw [show (s.between s.emitted_sources s.generated s.function).interaction_id = s.interaction_id from rfl]
      simp only [opened,sameMetadata]
  have kind : (b.step.text "type").getD "" = "thought" := by rw [typed]; rfl
  have isThought : content = [.Reasoning ("\n".intercalate (summary b.step)) (some (part_metadata config b.step s.interaction_id))] := by
    simp only [Interactions.step,kind,reduceEq,if_false,if_true] at complete
    exact (Except.ok.inj complete).symm
  refine ⟨[thought],[],s.generated,?_,?_,?_,rfl,fun _ => ?_⟩
  · simpa [typed,fresh] using leads
  · rw [isThought]
    rfl
  · rw [streamedPieces,typed,if_pos rfl,continues,join_continuedBy]
    rfl
  · simp [stepCites,stepGroups,typed,isResult,fresh]

end

end Ferrin.Google.Interactions
