import Ferrin.Google.Interactions.StreamedSteps

/-!
Streamed outputs: a text is told in pieces between and after the files and the
sources of the blocks (`adds_output`).
-/
namespace Ferrin.Google.Interactions
open Ferrin.Stream Ferrin.StreamText List String Heard State JsonValue EventsLead
open String (join)
open Heard (hear isShown)

/-! ### What a block holds -/

def blockTexts (value : JsonValue) : List String := if isTextBlock value then [(value.text "text").getD ""] else []

def blockFiles (config : Config) (value : JsonValue) : List Content :=
  if isMediaBlock value then
    match file_data config value with
    | .ok data => data.toList.map fun data =>
      .File data ((value.text "mime_type").getD (default_media ((value.text "type").getD ""))) none none
    | .error _ => []
  else []

def Readable (config : Config) (value : JsonValue) : Prop :=
  isMediaBlock value = true → ∃ data, file_data config value = .ok data

structure Holds (contents : List Content) (texts : List String) (others : List Content) (groups : List (List Source)) : Prop where
  known : ∀ c ∈ contents, Heard.isBlockContent c = true
  said : said contents = join texts
  pieces : pieces contents = others
  sources : (sources contents).map erased = groups.flatMap (distinct [])

theorem holds_nothing : Holds [] [] [] [] := ⟨by simp,rfl,rfl,rfl⟩

variable {others contents : List Content} {groups : List (List Source)}

theorem Holds.append {first second : List Content} {texts more : List String} {rest : List Content}
    {later : List (List Source)} (here : Holds first texts others groups) (there : Holds second more rest later) :
    Holds (first ++ second) (texts ++ more) (others ++ rest) (groups ++ later) := by
  refine ⟨?_,?_,?_,?_⟩
  · simp only [forall_mem_append]
    exact ⟨here.known,there.known⟩
  · rw [said_append,here.said,there.said,join_append]
  · rw [pieces_append,here.pieces,there.pieces]
  · rw [sources_append,map_append,here.sources,there.sources,flatMap_append]

theorem Holds.cites {texts : List String}
    (holds : Holds contents texts others groups) : Cites (Interactions.sources contents) groups.flatten := .of_groups holds.sources

section
variable {config : Config} {value : JsonValue}

variable {generated : Nat} {metadata : ProviderMetadata} {α : Type} {h : Heard} {started step : JsonValue}

theorem readable_of_block
    (read : (block config generated value metadata).2 = .ok contents) : Readable config value := by
  intro media
  cases typed : value.text "type" with
  | none => simp [isMediaBlock,typed] at media
  | some kind =>
    replace media : isMedia kind = true := by simpa [isMediaBlock,typed] using media
    have notText : kind ≠ "text" := by
      rintro rfl
      exact absurd media (by decide)
    cases read' : file_data config value with
    | ok data => exact ⟨data,rfl⟩
    | error => simp [block,typed,notText,media,read',Except.map] at read

theorem block_holds (readable : Readable config value) (generated : Nat) (metadata : ProviderMetadata) : ∃ contents,
    (block config generated value metadata).2 = .ok contents ∧
      Holds contents (blockTexts value) (blockFiles config value) [blockCites config value] := by
  cases typed : value.text "type" with
  | none =>
    have noMedia : isMediaBlock value = false := by simp [isMediaBlock,typed]
    refine ⟨[],by simp [block,typed],⟨by simp,?_,?_,?_⟩⟩ <;> simp [blockTexts,blockFiles,blockCites,isTextBlock,typed,noMedia,distinct]
  | some kind =>
    by_cases isText : kind = "text"
    · subst isText
      obtain ⟨found,read,same⟩ := extract_eq config generated value
      have isText : isTextBlock value = true := by simp [isTextBlock,typed]
      have noMedia : isMediaBlock value = false := by simp [isMediaBlock,typed,isMedia]
      refine ⟨.Text ((value.text "text").getD "") (some metadata) :: found.map .Source,?_,?_,?_,?_,?_⟩
      · simp only [block,typed,if_true]
        rw [← read]
      · simp [isBlockContent]
      · simp [blockTexts,isText]
      · simp [blockFiles,noMedia]
      · rw [sources_text,sources_found,blockCites,if_pos isText,same,flatMap_singleton]
    · have noText : isTextBlock value = false := by simp [isTextBlock,typed,isText]
      have sameMedia : isMediaBlock value = isMedia kind := by simp [isMediaBlock,typed]
      by_cases media : isMedia kind = true
      · obtain ⟨data,read⟩ := readable (sameMedia.trans media)
        refine ⟨data.toList.map fun data => .File data ((value.text "mime_type").getD (default_media kind)) none (some metadata),
          by simp [block,typed,isText,media,read,Except.map],?_⟩
        have files : blockFiles config value = data.toList.map fun data =>
            .File data ((value.text "mime_type").getD (default_media kind)) none none := by
          simp [blockFiles,sameMedia,media,read,typed]
        rw [files,blockTexts,blockCites,noText]
        cases data with
        | none => exact ⟨by simp,rfl,rfl,rfl⟩
        | some => exact ⟨by simp [isBlockContent],rfl,rfl,rfl⟩
      · refine ⟨[],by simp [block,typed,isText,media],⟨by simp,?_,?_,?_⟩⟩ <;>
          simp [blockTexts,blockFiles,blockCites,noText,sameMedia,media,distinct]

theorem readable_of_blocks (values : List JsonValue) : ∀ (generated : Nat) (contents : List Content),
    (blocks config metadata generated values).2 = .ok contents → ∀ value ∈ values, Readable config value := by
  induction values with
  | nil => simp
  | cons value rest ih =>
    intro generated contents read
    rcases first : block config generated value metadata with ⟨later,error | _⟩
    · simp [blocks,first] at read
    · simp only [blocks,first] at read
      rcases others : blocks config metadata later rest with ⟨_,_ | there⟩
      · rw [others] at read
        cases read
      · exact List.forall_mem_cons.mpr ⟨readable_of_block (congrArg Prod.snd first),
          ih later there (congrArg Prod.snd others)⟩

theorem blocks_hold (metadata : ProviderMetadata) (values : List JsonValue) (readable : ∀ value ∈ values, Readable config value) :
    ∀ generated, ∃ contents, (blocks config metadata generated values).2 = .ok contents ∧
      Holds contents (values.flatMap blockTexts) (values.flatMap (blockFiles config)) (values.map (blockCites config)) := by
  induction values with
  | nil => exact fun _ => ⟨[],rfl,holds_nothing⟩
  | cons value _ ih =>
    intro generated
    obtain ⟨here,first,holds⟩ := block_holds (readable value (by simp)) generated metadata
    rcases read : block config generated value metadata with ⟨later,outcome⟩
    obtain rfl : outcome = .ok here := (congrArg Prod.snd read).symm.trans first
    obtain ⟨there,others,more⟩ := ih (fun value mem => readable value (by simp [mem])) later
    exact ⟨here ++ there,by simp [blocks,read,others,Except.map],holds.append more⟩

def deltaCites (config : Config) (delta : JsonValue) : List Source :=
  if isAnnotationDelta delta then (delta.items "annotations").flatMap ( annotationCites config) else []

theorem block_kinds (value : JsonValue) : (isTextBlock value = true → isMediaBlock value = false ∧ isAnnotationDelta value = false) ∧
    (isMediaBlock value = true → isTextBlock value = false ∧ isAnnotationDelta value = false) ∧
    (isAnnotationDelta value = true → isTextBlock value = false ∧ isMediaBlock value = false) := by
  cases typed : value.text "type" with
  | none => simp [isTextBlock,isMediaBlock,isAnnotationDelta,typed]
  | some =>
    simp only [isTextBlock,isMediaBlock,isAnnotationDelta,typed,isMedia, isAnnotation,Option.some.injEq,Option.map_some,
      Option.getD_some,decide_eq_true_eq,mem_cons,not_mem_nil,or_false]
    refine ⟨?_,?_,?_⟩
    · rintro rfl
      decide
    · rintro (rfl | rfl | rfl | rfl) <;> decide
    · rintro (rfl | rfl) <;> decide

theorem cites_text (isText : isTextBlock value = true) :
    blockCites config value = (value.items "annotations").flatMap ( annotationCites config) := by
  have typed : value.text "type" = some "text" := by simpa [isTextBlock] using isText
  have nothing : ∀ result ∈ value.items "result", resultCites config (some "text") result = [] := fun _ _ => rfl
  rw [blockCites,if_pos isText,cites,typed,List.flatMap_eq_nil_iff.mpr nothing,append_nil]

theorem join_flatMap (f : α → List String) (items : List α) :
    join (items.flatMap f) = join (items.map fun item => join (f item)) := by
  induction items with
  | nil => rfl
  | cons _ _ ih => rw [flatMap_cons,join_append,map_cons,join_cons,ih]

section
variable {b : BlockStream}

theorem join_of_filter (deltas : List JsonValue) : join (deltas.flatMap blockTexts) =
    join ((deltas.filter isTextBlock).map fun delta => (delta.text "text").getD "") := by
  induction deltas with
  | nil => rfl
  | cons delta _ ih =>
    rw [flatMap_cons,join_append,ih]
    by_cases isText : isTextBlock delta = true <;> simp [blockTexts,isText]

theorem cites_of_filter (deltas : List JsonValue) (known : ∀ delta ∈ deltas, isTextBlock delta = true ∨ isAnnotationDelta delta = true) :
    deltas.flatMap (deltaCites config) =
      ((deltas.filter (!isTextBlock ·)).flatMap (·.items "annotations")).flatMap ( annotationCites config) := by
  induction deltas with
  | nil => rfl
  | cons delta _ ih =>
    have others := ih fun delta mem => known delta (by simp [mem])
    obtain isText | annotates := known delta (by simp)
    · simp [deltaCites,others,isText,((block_kinds delta).1 isText).2]
    · simp [deltaCites,others,annotates,((block_kinds delta).2.2 annotates).1]

theorem BlockStream.Brings.texts (brings : b.Brings) :
    join (b.begun.toList.flatMap blockTexts ++ b.deltas.flatMap blockTexts) = join (blockTexts b.block) := by
  obtain ⟨isText,begins,-,text,-⟩ | ⟨_,⟨begun,rest⟩ | ⟨begun,-,delta,rest,same⟩⟩ := brings
  · rw [join_append,join_of_filter b.deltas,blockTexts,if_pos isText]
    cases known : b.begun with
    | none => simpa [known] using text.symm
    | some begun =>
      have textual := begins begun known
      simpa [known,blockTexts,textual] using text.symm
  · simp [begun,rest]
  · have alike : blockTexts delta = blockTexts b.block := by
      simp only [blockTexts,isTextBlock,same.text (not_mem_nil)]
      rfl
    simp [begun,rest,alike]

theorem BlockStream.Brings.files (brings : b.Brings) :
    b.begun.toList.flatMap (blockFiles config) ++ b.deltas.flatMap (blockFiles config) = blockFiles config b.block := by
  have silent (value : JsonValue) (noMedia : isMediaBlock value = false) : blockFiles config value = [] := by
    rw [blockFiles,noMedia]
    rfl
  obtain ⟨isText,begins,deltas,-,-⟩ | ⟨_,⟨begun,rest⟩ | ⟨begun,-,delta,rest,same⟩⟩ := brings
  · rw [silent b.block ((block_kinds _).1 isText).1,append_eq_nil_iff,flatMap_eq_nil_iff,flatMap_eq_nil_iff]
    refine ⟨fun value mem => silent value ((block_kinds _).1 (begins value (Option.mem_toList.mp mem))).1,
      fun value mem => silent value ?_⟩
    exact (deltas value mem).elim (fun isText => ((block_kinds _).1 isText).1) fun annotates => ((block_kinds _).2.2 annotates).2
  · simp [begun,rest]
  · have alike : blockFiles config delta = blockFiles config b.block := by
      simp only [blockFiles,isMediaBlock,file_data,same.text (not_mem_nil)]
      rfl
    simp [begun,rest,alike]

theorem BlockStream.Brings.cites (brings : b.Brings) :
    b.begun.toList.flatMap (blockCites config) ++ b.deltas.flatMap (deltaCites config) = blockCites config b.block := by
  obtain ⟨isText,begins,deltas,-,cited⟩ | ⟨notText,⟨begun,rest⟩ | ⟨begun,media,delta,rest,same⟩⟩ := brings
  · rw [cites_text isText,cited,flatMap_append,cites_of_filter b.deltas deltas]
    cases known : b.begun with
    | none => rfl
    | some begun =>
      have textual := begins begun known
      simp [cites_text textual]
  · simp [begun,rest]
  · have unannotated : isAnnotationDelta delta = false := by
      have media' : isMediaBlock delta = true := by
        rw [isMediaBlock,← same.text (not_mem_nil)]
        exact media
      exact ((block_kinds delta).2.1 media').2
    simp [begun,rest,deltaCites,unannotated,blockCites,notText]

end

theorem flatMap_parts {γ : Type} (f g : JsonValue → List γ) {streams : List BlockStream}
    (order : streams.Pairwise fun a b => b.begun.isSome → a.deltas = []) :
    (streams.filterMap BlockStream.begun).flatMap f ++ (streams.flatMap BlockStream.deltas).flatMap g =
      streams.flatMap fun b => b.begun.toList.flatMap f ++ b.deltas.flatMap g := by
  induction streams with
  | nil => rfl
  | cons b rest ih =>
    obtain ⟨first,others⟩ := List.pairwise_cons.mp order
    have later := ih others
    by_cases ended : b.deltas = []
    · cases begun : b.begun <;> simp [begun,ended] <;> simpa using later
    · have bare : rest.filterMap BlockStream.begun = [] := by
        refine List.filterMap_eq_nil_iff.mpr fun other member => ?_
        exact Option.not_isSome_iff_eq_none.mp fun begun => ended (first other member begun)
      rw [bare] at later
      cases begun : b.begun <;> simp [begun,bare,flatMap_append] <;> simpa using later

/-- An open output: what was told of it so far. -/
def Telling (s : State) (index : Nat) (before : List Content) (texts : List String) (files : List Content) (cites : List Source)
    (t : State) (acc : Accumulation) : Prop :=
  ∃ (step : JsonValue) (generated : Nat) (h : Heard) (found : List Source), step.text "type" = some "model_output" ∧
    t = s.during (fresh s.emitted_sources found).1 generated s.function index ⟨step,step_id index,h.text.isSome,""⟩ ∧
    acc = h.acc before (step_id index) ∧ h.Tells (join texts) files (fresh s.emitted_sources found).2 ∧ Cites found cites

variable {include_raw : Bool} {s t : State} {acc : Accumulation} {index : Nat} {before : List Content} {texts : List String}
  {files : List Content} {found cited : List Source} {event : JsonValue × JsonValue} {delta : JsonValue}

theorem tells_more (tells : h.Tells (join texts) files (fresh s.emitted_sources found).2)
    (cites : Cites found cited) {more : List String} {later : List Source}
    (saying : said contents = join more) (filed : pieces contents = others) (citing : Cites (sources contents) later) :
    let heard := contents.foldl hear ((fresh s.emitted_sources found).1,h)
    heard.1 = (fresh s.emitted_sources (found ++ sources contents)).1 ∧
      heard.2.Tells (join (texts ++ more)) (files ++ others) (fresh s.emitted_sources (found ++ sources contents)).2 ∧
      Cites (found ++ sources contents) (cited ++ later) := by
  obtain ⟨keys,all⟩ := tells.all contents (fresh s.emitted_sources found).1
  rw [saying,filed,← join_append] at all
  rw [fresh_append]
  exact ⟨keys,all,cites.append citing⟩

theorem output_begins (idle : s.open_steps = []) (isStart : IsEvent "step.start" index event.1)
    (brings : event.1.index "step" = started) (typed : started.text "type" = some "model_output")
    (readable : ∀ value ∈ started.items "content", Readable config value) (before : List Content) :
    ∃ t later, EventsLead config include_raw s ⟨before,.empty⟩ [event] t later ∧
      Telling s index before ((started.items "content").flatMap blockTexts) ((started.items "content").flatMap (blockFiles config))
        ((started.items "content").flatMap (blockCites config)) t later := by
  let metadata := part_metadata config started s.interaction_id
  obtain ⟨contents,read,holds⟩ := blocks_hold metadata (started.items "content") readable s.generated
  have kind : (started.text "type").getD "" = "model_output" := by rw [typed]; rfl
  have nothing : Heard.nothing.Tells (join []) [] (fresh s.emitted_sources []).2 := tells_nothing
  have none_ : Cites [] [] := fun _ => rfl
  obtain ⟨keys,tells,cites⟩ := tells_more nothing none_ holds.said holds.pieces holds.cites
  rw [← flatMap_def] at cites
  obtain ⟨opened,seen,after⟩ := output_heard (step_id index) contents holds.known s.emitted_sources .nothing before
  rw [Heard.tells_nothing.acc rfl,show before ++ Heard.nothing.content = before from append_nil before] at after
  let heard := contents.foldl hear (s.emitted_sources,Heard.nothing)
  have begun : s.begin_step config index started "model_output" =
      (s.during s.emitted_sources (blocks config metadata s.generated (started.items "content")).1 s.function index
        ⟨started,step_id index,heard.2.text.isSome,""⟩,.ok (State.output_parts (step_id index) false contents).2) := by
    have whole : Interactions.step config s.generated started s.interaction_id s.aliases =
        ((blocks config metadata s.generated (started.items "content")).1,.ok contents) := by
      rw [← read]
      simp only [Interactions.step,kind,if_true]
      rfl
    have opens : (State.output_parts (step_id index) false contents).1 = heard.2.text.isSome := opened
    simp only [begin_step,reduceEq,if_false,if_true,whole,opens]
    simp [State.insert,State.took,State.during,idle]
  have leads : EventsLead config include_raw s ⟨before,.empty⟩ [event] _ _ :=
    start _ idle isStart brings typed begun after
  have emitted : (retain s.emitted_sources (State.output_parts (step_id index) false contents).2).1 =
      (fresh s.emitted_sources ([] ++ sources contents)).1 := Eq.trans seen keys
  rw [emitted] at leads
  exact ⟨_,_,leads,started,_,heard.2,[] ++ sources contents,typed,rfl,rfl,tells,cites⟩

theorem block_heard {seen : List String} {function : Bool} {kind : String}
    (typed : step.text "type" = some "model_output") (isKind : delta.text "type" = some kind)
    (isBlock : (isMedia kind || State.isAnnotation kind) = true) {value : JsonValue} {later : Nat}
    (valued : value = if isMedia kind then delta else delta.assign "type" (.string "text"))
    (read : block config generated value (part_metadata config step s.interaction_id) = (later,.ok contents))
    (isDelta : IsEvent "step.delta" index event.1) (brings : event.1.index "delta" = delta)
    (silent : others.flatMap (content_parts · (step_id index)) = contents.flatMap fun content =>
      match content with
      | .Text .. => []
      | content => content_parts content (step_id index)) (shown : ∀ c ∈ others, isShown c = true) :
    EventsLead config include_raw (s.during seen generated function index ⟨step,step_id index,h.text.isSome,""⟩)
      (h.acc before (step_id index)) [event]
      (s.during (others.foldl hear (seen,h)).1 later function index
        ⟨step,step_id index,(others.foldl hear (seen,h)).2.text.isSome,""⟩)
      ((others.foldl hear (seen,h)).2.acc before (step_id index)) := by
  obtain ⟨keys,after⟩ := contents_heard (step_id index) others shown seen h before
  have still : (others.foldl hear (seen,h)).2.text = h.text :=
    hear_silent others (fun c mem => by cases c <;> first | rfl | exact absurd (shown _ mem) (by simp [isShown])) seen h
  have fed : (s.during seen generated function index ⟨step,step_id index,h.text.isSome,""⟩).feed config index
      ⟨step,step_id index,h.text.isSome,""⟩ delta kind = (s.during seen later function index ⟨step,step_id index,h.text.isSome,""⟩,
        .ok (others.flatMap (content_parts · (step_id index)))) := by
    have apart : kind ≠ "text" ∧ kind ≠ "thought_summary" ∧ kind ≠ "thought_signature" ∧ kind ≠ "arguments_delta" := by
      simp only [isMedia, isAnnotation,Bool.or_eq_true,decide_eq_true_eq,mem_cons,not_mem_nil,or_false] at isBlock
      obtain (rfl | rfl | rfl | rfl) | rfl | rfl := isBlock <;> decide
    have own : (s.during seen generated function index ⟨step,step_id index,h.text.isSome,""⟩).interaction_id = s.interaction_id := rfl
    have counted : (s.during seen generated function index ⟨step,step_id index,h.text.isSome,""⟩).generated = generated := rfl
    simp only [feed,apart,false_and,if_false,typed,and_true,Bool.or_eq_true] at isBlock ⊢
    rw [if_pos isBlock,block_delta,own,counted,← valued,read,silent]
    rfl
  rw [← keys,still]
  exact EventsLead.delta _ isDelta brings isKind fed after

theorem silenced (contents : List Content) (known : ∀ c ∈ contents, Heard.isBlockContent c = true) (id : PartId) :
    ∃ others : List Content, (others.flatMap (content_parts · id) = contents.flatMap fun content =>
      match content with
      | .Text .. => []
      | content => content_parts content id) ∧ (∀ c ∈ others, isShown c = true) ∧ said others = "" ∧
      pieces others = pieces contents ∧ sources others = sources contents := by
  induction contents with
  | nil => exact ⟨[],rfl,by simp,rfl,rfl,rfl⟩
  | cons c _ ih =>
    obtain ⟨others,alike,shown,quiet,filed,citing⟩ := ih fun c mem => known c (by simp [mem])
    have first := known c (by simp)
    cases c with
    | Text => exact ⟨others,alike,shown,quiet,filed.trans pieces_text.symm,citing.trans sources_text.symm⟩
    | File data media_type filename metadata =>
      refine ⟨.File data media_type filename metadata :: others,by simp only [flatMap_cons,alike],List.forall_mem_cons.mpr ⟨rfl,shown⟩,?_,?_,?_⟩
      · exact quiet
      · exact congrArg (_ :: ·) filed
      · exact citing
    | Source source =>
      refine ⟨.Source source :: others,by simp only [flatMap_cons,alike],List.forall_mem_cons.mpr ⟨rfl,shown⟩,?_,?_,?_⟩
      · exact quiet
      · exact filed
      · exact congrArg (_ :: ·) citing
    | _ => cases first

theorem merge_type (step delta : JsonValue) : (State.merge step delta).text "type" = step.text "type" := by
  unfold State.merge
  split
  · rename_i target fields
    refine text_congr (JsonObject.lookup_extend _ (List.lookup_eq_none_iff.mpr fun field mem => ?_) target)
    have other : field.1 ∉ ["type","id","name"] := of_decide_eq_true (List.mem_filter.mp mem).2
    simpa using fun same => other (by simp [← same])
  · rfl

theorem output_goes (telling : Telling s index before texts files cited t acc) (isDelta : IsEvent "step.delta" index event.1)
    (brings : event.1.index "delta" = delta)
    (known : (∃ without, IsOwn "model_output" without delta) ∨ isTextBlock delta = true ∨ isAnnotationDelta delta = true ∨
      isMediaBlock delta = true) (readable : Readable config delta) :
    ∃ u last, EventsLead config include_raw t acc [event] u last ∧ Telling s index before (texts ++ blockTexts delta)
      (files ++ blockFiles config delta) (cited ++ deltaCites config delta) u last := by
  obtain ⟨step,generated,h,found,typed,rfl,rfl,tells,cites⟩ := telling
  -- media and annotations are heard alike
  have heard (kind : String) (isKind : delta.text "type" = some kind) (isBlock : (isMedia kind || isAnnotation kind) = true)
      (value : JsonValue) (valued : value = if isMedia kind then delta else delta.assign "type" (.string "text"))
      (read : Readable config value) (saying : blockTexts delta = []) (filing : blockFiles config value = blockFiles config delta)
      (citing : blockCites config value = deltaCites config delta) :
      ∃ u last, EventsLead config include_raw (s.during (fresh s.emitted_sources found).1 generated s.function index
          ⟨step,step_id index,h.text.isSome,""⟩) (h.acc before (step_id index)) [event] u last ∧
        Telling s index before (texts ++ blockTexts delta) (files ++ blockFiles config delta) (cited ++ deltaCites config delta) u last := by
    obtain ⟨contents,maps,holds⟩ := block_holds read generated (part_metadata config step s.interaction_id)
    obtain ⟨others,alike,shown,quiet,filed,cited'⟩ := silenced contents holds.known (step_id index)
    obtain ⟨keys,more,cites'⟩ := tells_more tells cites (show said others = join [] from quiet) (filed.trans holds.pieces) (cited' ▸ holds.cites)
    rw [flatten_singleton] at cites'
    have leads : EventsLead config include_raw (s.during (fresh s.emitted_sources found).1 generated s.function index
        ⟨step,step_id index,h.text.isSome,""⟩) (h.acc before (step_id index)) [event] _ _ :=
      block_heard typed isKind isBlock valued (Prod.ext rfl maps) isDelta brings alike shown
    refine ⟨_,_,leads,step,_,_,_,typed,by rw [keys],rfl,?_,?_⟩
    · rw [saying,← filing]
      exact more
    · rw [← citing]
      exact cites'
  obtain ⟨_,own⟩ | isText | annotates | media := known
  · have bare : blockTexts delta = [] ∧ blockFiles config delta = [] ∧ deltaCites config delta = [] := by
      simp [blockTexts,blockFiles,deltaCites,isTextBlock,isMediaBlock,isAnnotationDelta,own.1,isMedia, isAnnotation]
    rw [bare.1,bare.2.1,bare.2.2,append_nil,append_nil,append_nil]
    refine ⟨_,_,EventsLead.delta _ isDelta brings own.1 (feed_own rfl typed own) rfl,
      State.merge step delta,generated,h,found,(merge_type step delta).trans typed,rfl,rfl,tells,cites⟩
  · have isKind : delta.text "type" = some "text" := by simpa [isTextBlock] using isText
    have bare : blockTexts delta = [(delta.text "text").getD ""] ∧ blockFiles config delta = [] ∧ deltaCites config delta = [] := by
      simp [blockTexts,blockFiles,deltaCites,isText,((block_kinds delta).1 isText).1,((block_kinds delta).1 isText).2]
    rw [bare.1,bare.2.1,bare.2.2,append_nil,append_nil]
    let text := (delta.text "text").getD ""
    let parts := (if h.text.isSome then [] else [StreamPart.TextStart (step_id index) none]) ++ [.text_delta (step_id index) text]
    have uncited : ∀ part ∈ parts, ∀ source, part ≠ .Source source := by
      cases known : h.text.isSome <;> simp [parts,known,StreamPart.text_delta]
    have shown := retain_uncited uncited (fresh s.emitted_sources found).1
    have fed : (s.during (fresh s.emitted_sources found).1 generated s.function index ⟨step,step_id index,h.text.isSome,""⟩).feed
        config index ⟨step,step_id index,h.text.isSome,""⟩ delta "text" =
          (s.during (fresh s.emitted_sources found).1 generated s.function index
            ⟨step,step_id index,(h.say text none).text.isSome,""⟩,.ok parts) := by
      simp [feed,typed,text_delta,update,State.during,parts,text]
    have leads : EventsLead config include_raw _ (h.acc before (step_id index)) [event] _
        ((h.say text none).acc before (step_id index)) := EventsLead.delta _ isDelta brings isKind fed (by
      rw [shown]
      exact acc_say h before (step_id index) text none)
    rw [shown] at leads
    refine ⟨_,_,leads,step,generated,h.say text none,found,typed,rfl,rfl,?_,cites⟩
    rw [join_append,join_cons,join_nil,append_empty]
    exact tells.say text none
  · have noText := ((block_kinds delta).2.2 annotates).1
    have noMedia := ((block_kinds delta).2.2 annotates).2
    cases isKind : delta.text "type" with
    | none => simp [isAnnotationDelta,isKind] at annotates
    | some kind =>
      have annotates' : isAnnotation kind = true := by simpa [isAnnotationDelta,isKind] using annotates
      have noMedia' : isMedia kind = false := by simpa [isMediaBlock,isKind] using noMedia
      obtain ⟨members,rfl⟩ : ∃ members, delta = .object members := by
        have found := text_get isKind
        cases delta <;> first | exact ⟨_,rfl⟩ | cases found
      let value := (object members).assign "type" (.string "text")
      have valueText : isTextBlock value = true := by
        have typed : value.text "type" = some "text" := by
          rw [text_iff,JsonValue.index,get_assign,if_pos rfl]
          rfl
        simp [isTextBlock,typed]
      have valueMedia := ((block_kinds value).1 valueText).1
      have annotations : value.items "annotations" = (object members).items "annotations" := by
        rw [JsonValue.items,JsonValue.items,JsonValue.index,JsonValue.index,get_assign,if_neg (by decide)]
      refine heard kind isKind (by simp [annotates']) value (by simp [noMedia',value]) (fun media => ?_) (by simp [blockTexts,noText])
        (by simp [blockFiles,valueMedia,noMedia]) ?_
      · rw [valueMedia] at media
        cases media
      · rw [cites_text valueText,annotations,deltaCites,if_pos annotates]
  · have noText := ((block_kinds delta).2.1 media).1
    have unannotated := ((block_kinds delta).2.1 media).2
    cases isKind : delta.text "type" with
    | none => simp [isMediaBlock,isKind] at media
    | some kind =>
      have media' : isMedia kind = true := by simpa [isMediaBlock,isKind] using media
      exact heard kind isKind (by simp [media']) delta (by simp [media']) readable (by simp [blockTexts,noText]) rfl
        (by simp [blockCites,deltaCites,noText,unannotated])

theorem output_ends (telling : Telling s index before texts files cited t acc) (isStop : IsEvent "step.stop" index event.1) :
    ∃ u last, EventsLead config include_raw t acc [event] u last ∧ ∃ segment found generated,
      u = s.between (fresh s.emitted_sources found).1 generated s.function ∧ last = ⟨before ++ segment,.empty⟩ ∧
      said segment = join texts ∧ pieces segment = files ∧ sources segment = (fresh s.emitted_sources found).2 ∧
      Cites found cited := by
  obtain ⟨step,generated,h,found,typed,rfl,rfl,tells,cites⟩ := telling
  have closes : (step.text "type").getD "" = "model_output" := by rw [typed]; rfl
  let metadata := part_metadata config step s.interaction_id
  obtain ⟨segment,after,saying,filed,citing⟩ : ∃ segment,
      (h.acc before (step_id index)).after (if h.text.isSome then [.TextEnd (step_id index) (some metadata)] else []) =
        .ok ⟨before ++ segment,.empty⟩ ∧
      said segment = said h.content ∧ pieces segment = pieces h.content ∧ sources segment = sources h.content := by
    obtain ⟨front,open_,back⟩ := h
    cases open_ with
    | none => exact ⟨_,congrArg Except.ok (tells.acc rfl before),rfl,rfl,rfl⟩
    | some open_ =>
      refine ⟨front ++ .Text open_.1 (some metadata) :: back,?_,by simp [content],by simp [content],by simp [content]⟩
      refine (after_single ..).trans ((Accumulation.opened_end .text (some metadata)).trans ?_)
      simp [Kind.said]
  have uncited : ∀ part ∈ (if h.text.isSome then [StreamPart.TextEnd (step_id index) (some metadata)] else []),
      ∀ source, part ≠ .Source source := by
    cases h.text.isSome <;> simp
  have shown := retain_uncited uncited (fresh s.emitted_sources found).1
  have closed : (s.between (fresh s.emitted_sources found).1 generated s.function).close config
      ⟨step,step_id index,h.text.isSome,""⟩ = (s.between (fresh s.emitted_sources found).1 generated s.function,
        .ok (if h.text.isSome then [.TextEnd (step_id index) (some metadata)] else [])) := by
    simp only [close,closes,if_true]
    rfl
  have leads : EventsLead config include_raw _ (h.acc before (step_id index)) [event] _ ⟨before ++ segment,.empty⟩ :=
    stop _ isStop closed (by
      rw [shown]
      exact after)
  rw [shown] at leads
  exact ⟨_,_,leads,segment,found,generated,rfl,rfl,saying.trans tells.said,filed.trans tells.pieces,citing.trans tells.sources,cites⟩

/-! ### The whole output -/

theorem flatMap_filter {β : Type} (f : α → List β) (keeps : α → Bool) (items : List α)
    (nothing : ∀ item ∈ items, keeps item = false → f item = []) : (items.filter keeps).flatMap f = items.flatMap f := by
  induction items with
  | nil => rfl
  | cons item _ ih =>
    have others := ih fun item mem => nothing item (by simp [mem])
    cases known : keeps item with
    | true => simp [known,others]
    | false => simp [known,others,nothing item (by simp) known]

theorem own_silent (config : Config) {delta : JsonValue} (own : delta.text "type" = some "model_output") :
    blockTexts delta = [] ∧ blockFiles config delta = [] ∧ deltaCites config delta = [] := by
  simp [blockTexts,blockFiles,deltaCites,isTextBlock,isMediaBlock,isAnnotationDelta,own,isMedia, isAnnotation]

theorem output_brought {deltas : List JsonValue} (brings : BringsOutput step started deltas)
    (readable : ∀ value ∈ step.items "content", Readable config value) :
    (∀ value ∈ started.items "content", Readable config value) ∧
    (∀ delta ∈ deltas, ((∃ without, IsOwn "model_output" without delta) ∨ isTextBlock delta = true ∨ isAnnotationDelta delta = true ∨
      isMediaBlock delta = true) ∧ Readable config delta) ∧
    join ((started.items "content").flatMap blockTexts ++ deltas.flatMap blockTexts) =
      join ((step.items "content").flatMap blockTexts) ∧
    (started.items "content").flatMap (blockFiles config) ++ deltas.flatMap (blockFiles config) =
      (step.items "content").flatMap (blockFiles config) ∧
    (started.items "content").flatMap (blockCites config) ++ deltas.flatMap (deltaCites config) =
      (step.items "content").flatMap (blockCites config) := by
  obtain ⟨own,streams,brings,order,blocks_,begun,rest⟩ := brings
  have silent {β : Type} (f : JsonValue → List β) (nothing : ∀ delta, delta.text "type" = some "model_output" → f delta = []) :
      deltas.flatMap f = (streams.flatMap BlockStream.deltas).flatMap f := by
    rw [← rest]
    refine (flatMap_filter f _ deltas fun delta _ isOwn => nothing delta ?_).symm
    simpa using isOwn
  rw [silent blockTexts fun _ own => (own_silent config own).1,silent _ fun _ own => (own_silent config own).2.1,
    silent _ fun _ own => (own_silent config own).2.2,begun,blocks_,flatMap_parts _ _ order,flatMap_parts _ _ order,flatMap_parts _ _ order,
    flatMap_map,flatMap_map,flatMap_map]
  have notMedia {value : JsonValue} (other : isTextBlock value = true ∨ isAnnotationDelta value = true) : Readable config value := by
    intro media
    have := (block_kinds value).2.1 media
    simp [this] at other
  refine ⟨?_,fun delta mem => ?_,?_,?_,?_⟩
  · intro value mem
    obtain ⟨b,found,isBegun⟩ := List.mem_filterMap.mp mem
    obtain ⟨-,begins,-⟩ | ⟨-,⟨begun,-⟩ | ⟨begun,-⟩⟩ := brings b found
    · exact notMedia (.inl (begins value isBegun))
    · have same : value = b.block := Option.some.inj (isBegun.symm.trans begun)
      exact same ▸ readable _ (blocks_ ▸ mem_map_of_mem found)
    · rw [begun] at isBegun
      cases isBegun
  · by_cases isOwn : delta.text "type" = some "model_output"
    · refine ⟨.inl ((own delta mem).elim (fun own => ⟨_,own⟩) fun other => absurd isOwn other),fun media => ?_⟩
      simp [isMediaBlock,isOwn,isMedia] at media
    · have kept : delta ∈ deltas.filter (·.text "type" ≠ some "model_output") := List.mem_filter.mpr ⟨mem,by simpa using isOwn⟩
      rw [rest] at kept
      obtain ⟨b,found,brought⟩ := List.mem_flatMap.mp kept
      obtain ⟨-,-,kinds,-⟩ | ⟨-,⟨-,none_⟩ | ⟨-,media,other,only,same⟩⟩ := brings b found
      · exact ⟨.inr ((kinds delta brought).imp_right .inl),notMedia (kinds delta brought)⟩
      · rw [none_] at brought
        cases brought
      · obtain rfl : delta = other := by simpa [only] using brought
        have sameText (key : String) : b.block.text key = delta.text key := same.text (not_mem_nil)
        have media' : isMediaBlock delta = true := by
          rw [isMediaBlock,← sameText]
          exact media
        refine ⟨.inr (.inr (.inr media')),fun _ => ?_⟩
        obtain ⟨data,read⟩ := readable _ (blocks_ ▸ mem_map_of_mem found) media
        refine ⟨data,?_⟩
        simp only [file_data,sameText] at read ⊢
        exact read
  · rw [join_flatMap,join_flatMap]
    refine congrArg join (map_congr_left fun b mem => (brings b mem).texts)
  · exact flatMap_congr fun b mem => (brings b mem).files
  · exact flatMap_congr fun b mem => (brings b mem).cites

theorem adds_output {b : StepStream} (typed : b.step.text "type" = some "model_output")
    (begins : b.started.text "type" = some "model_output") (brings : BringsOutput b.step b.started b.deltas)
    (idle : s.open_steps = []) {content : List Content} {generated' : Nat}
    (complete : (Interactions.step config generated' b.step s.interaction_id s.aliases).2 = .ok content) {events : Events}
    (streams : b.Streams (events.map Prod.fst)) : Adds config include_raw s b.step events content := by
  have kind : (b.step.text "type").getD "" = "model_output" := by rw [typed]; rfl
  simp only [Interactions.step,kind,if_true] at complete
  have readable := readable_of_blocks _ _ _ complete
  obtain ⟨content',again,holds⟩ := blocks_hold (part_metadata config b.step s.interaction_id) _ readable generated'
  obtain rfl : content = content' := Except.ok.inj (complete.symm.trans again)
  obtain ⟨startReadable,deltaKinds,texts,files,cites⟩ := output_brought brings readable
  intro before
  obtain ⟨u,last,leads,segment,found,generated,rfl,rfl,saying,filed,cited,citing⟩ :
      ∃ u last, EventsLead config include_raw s ⟨before,.empty⟩ events u last ∧ _ := streams.keeps
      (fun deltas => Telling s b.index before ((b.started.items "content").flatMap blockTexts ++ deltas.flatMap blockTexts)
        ((b.started.items "content").flatMap (blockFiles config) ++ deltas.flatMap (blockFiles config))
        ((b.started.items "content").flatMap (blockCites config) ++ deltas.flatMap (deltaCites config))) _
      (fun event isStart brings => by
        simpa using output_begins idle isStart brings begins startReadable before)
      (fun earlier delta others split t later telling event isDelta brings => by
        obtain ⟨known,read⟩ := deltaKinds delta (by simp [split])
        simpa using output_goes telling isDelta brings known read)
      (fun t later telling event isStop => output_ends telling isStop)
  have notFunction : b.step.text "type" ≠ some "function_call" := by simp [typed]
  refine ⟨segment,found,generated,by simpa [notFunction] using leads,?_,?_,cited,?_⟩
  · rw [saying,texts,holds.said]
  · rw [filed,files,streamedPieces,if_neg (by simp [typed]),holds.pieces]
  · rw [cites] at citing
    simpa [stepCites,stepGroups,typed,flatMap_def] using citing

end

end Ferrin.Google.Interactions
