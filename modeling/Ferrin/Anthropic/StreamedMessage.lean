import Ferrin.Anthropic.MessageStream
import Ferrin.Anthropic.Output
import Ferrin.StreamText.Leads

/-!
Streamed messages: how their events carry the blocks of a message, and what the
output for them adds up to (`accumulate_message`).
-/
namespace Ferrin.Anthropic
open Ferrin.Stream Ferrin.StreamText List Delta Accumulation OutputMapper
open Prod (fst)
open Kind (said startPart)
open Assoc (put remove)
open String (join ofList)

/-! ### Streamed blocks -/

def Delta.text : Delta → Option String
  | .Text text => some text
  | _ => none

def Delta.thinking : Delta → Option String
  | .Thinking thinking => some thinking
  | _ => none

def Delta.signature : Delta → Option String
  | .Signature signature => some signature
  | _ => none

def Delta.inputJson : Delta → Option String
  | .InputJson partial_json => some partial_json
  | _ => none

def Delta.compaction : Delta → Option String
  | .Compaction content => content
  | _ => none

def Delta.citation : Delta → Option JsonValue
  | .Citations citation => some citation
  | _ => none

def joined (piece : Delta → Option String) (deltas : List Delta) : String := join (deltas.filterMap piece)

def cited (deltas : List Delta) : List JsonValue := deltas.filterMap Delta.citation

def signed (deltas : List Delta) : Option ProviderMetadata :=
  (deltas.filterMap Delta.signature).getLast?.map fun signature => anthropic_metadata [("signature",.string signature)]

theorem joined_snoc (piece : Delta → Option String) (deltas : List Delta) (delta : Delta) :
    joined piece (deltas ++ [delta]) = joined piece deltas ++ (piece delta).getD "" := by
  cases known : piece delta <;> simp [joined,known]

theorem cited_snoc (deltas : List Delta) (delta : Delta) : cited (deltas ++ [delta]) = cited deltas ++ delta.citation.toList := by
  cases known : delta.citation <;> simp [cited,known]

def Pieces (pieces : List String) (text : String) : Prop := (∀ piece ∈ pieces, piece ≠ "") ∧ join pieces = text

def inputTypes : List String := ["text_editor_code_execution","bash_code_execution","programmatic-tool-call"]

/-- The text of a filled object, and what `serde_json` makes of it: it reads the text, also with a type added in front, and
    what it writes of the object, and does not read it behind an empty object. -/
structure Reads (config : Config) (text : String) (entries : JsonObject) : Prop where
  begins : ∃ rest, text = "\x7b" ++ rest ∧ ∀ kind ∈ inputTypes,
    config.from_str ("\x7b\"type\": \"" ++ kind ++ "\"," ++ rest) = some (.object (JsonObject.extend [("type",.string kind)] entries))
  read : config.from_str text = some (.object entries)
  written : config.from_str (config.to_string (.object entries)) = some (.object entries)
  writtenTyped : ∀ kind ∈ inputTypes, let typed := JsonValue.object (JsonObject.extend [("type",.string kind)] entries)
    config.from_str (config.to_string typed) = some typed
  trailing : config.from_str ("\x7b\x7d" ++ text) = none

def StreamsInput (config : Config) (input started : Option JsonValue) (pieces : List String) : Prop :=
  (started = none ∨ started = some (.object [])) ∧ ∃ entries, input.getD (.object []) = .object entries ∧
    entries.lookup "type" = none ∧
    if entries = [] then pieces = [] else ∃ text, Pieces pieces text ∧ Reads config text entries

structure BlockStream where
  index : Nat
  block : ContentBlock
  started : ContentBlock
  deltas : List Delta

def BlockStream.events (b : BlockStream) : List AnthropicChunk :=
  .ContentBlockStart b.index b.started :: b.deltas.map (.ContentBlockDelta b.index) ++ [.ContentBlockStop b.index]

def BlockStream.Carries (config : Config) (b : BlockStream) : Prop :=
  match b.block,b.started with
  | .Text text citations,.Text started _ =>
    started = "" ∧ (∀ delta ∈ b.deltas, delta.text.isSome ∨ delta.citation.isSome) ∧
      Pieces (b.deltas.filterMap Delta.text) text ∧ cited b.deltas = citations.getD []
  | .Thinking thinking signature,.Thinking started _ =>
    started = "" ∧ (∀ delta ∈ b.deltas, delta.thinking.isSome ∨ delta.signature.isSome) ∧
      Pieces (b.deltas.filterMap Delta.thinking) thinking ∧ Pieces (b.deltas.filterMap Delta.signature) (signature.getD "")
  | .Compaction content,.Compaction _ =>
    (∀ delta ∈ b.deltas, delta.compaction.isSome) ∧ Pieces (b.deltas.filterMap Delta.compaction) (content.getD "")
  | .ToolUse id name input caller,.ToolUse id' name' started caller' =>
    (id',name',caller') = (id,name,caller) ∧ (∀ delta ∈ b.deltas, delta.inputJson.isSome) ∧
      StreamsInput config input started (b.deltas.filterMap Delta.inputJson)
  | .ServerToolUse id name input caller,.ServerToolUse id' name' started caller' =>
    (id',name',caller') = (id,name,caller) ∧ (∀ delta ∈ b.deltas, delta.inputJson.isSome) ∧
      StreamsInput config input started (b.deltas.filterMap Delta.inputJson)
  | .McpToolUse id name input server_name,.McpToolUse id' name' started server_name' =>
    (id',name',server_name') = (id,name,server_name) ∧ (∀ delta ∈ b.deltas, delta.inputJson.isSome) ∧
      StreamsInput config input started (b.deltas.filterMap Delta.inputJson)
  | block,started => started = block ∧ b.deltas = []

def isResult : Content → Bool
  | .ToolResult _ | .Source _ => true
  | _ => false

namespace OutputMapper

theorem isResult_map_result_block (config : Config) (m : OutputMapper) (block : ContentBlock) :
    ∀ c ∈ (m.map_result_block config block).2.getD [], isResult c = true := by
  unfold map_result_block web_search
  cases block <;> dsimp only <;> (repeat' split) <;> simp [isResult]

end OutputMapper

variable {index : Nat} {input started : Option JsonValue} {pieces : List String}

namespace AnthropicStreamState
variable {config : Config} {include_raw : Bool} {s t : AnthropicStreamState} {acc later : Accumulation}

abbrev Events := List (AnthropicChunk × JsonValue)

def chunksOf (events : Events) : List (ParseResult AnthropicChunk) := events.map fun event => .Ok event.1 event.2

def told (config : Config) (include_raw : Bool) (s : AnthropicStreamState) (events : Events) : List StreamPart :=
  outputs (machine config) include_raw s (chunksOf events)

def Leads (config : Config) (include_raw : Bool) (s : AnthropicStreamState) (acc : Accumulation) (events : Events)
    (t : AnthropicStreamState) (later : Accumulation) : Prop :=
  StreamText.Leads (machine config) include_raw s acc (chunksOf events) t later

theorem Leads.none (s : AnthropicStreamState) (acc : Accumulation) : Leads config include_raw s acc [] s acc :=
  StreamText.Leads.none s acc

theorem Leads.trans {u : AnthropicStreamState} {last : Accumulation} {first second : Events}
    (here : Leads config include_raw s acc first t later) (there : Leads config include_raw t later second u last) :
    Leads config include_raw s acc (first ++ second) u last := by
  rw [Leads,chunksOf,map_append]
  exact StreamText.Leads.trans here there

theorem Leads.event {event : AnthropicChunk × JsonValue} {parts : List StreamPart} (valid : s.invalid_sequence = false)
    (handled : s.handle_chunk config event.1 event.2 = some (t,parts)) (after : acc.after parts = .ok later) :
    Leads config include_raw s acc [event] t later := by
  refine StreamText.Leads.chunk ?_ (raw_silent include_raw event.2) after
  simp only [machine,handle,valid,handled]
  rfl

variable {events : Events}

theorem Leads.deltas (state : List Delta → AnthropicStreamState) (heard : List Delta → Accumulation)
    {deltas : List Delta}
    (step : ∀ before delta after, deltas = before ++ delta :: after → (state before).invalid_sequence = false ∧
      ∃ parts, (state before).block_delta config index delta = some (state (before ++ [delta]),parts) ∧
        (heard before).after parts = .ok (heard (before ++ [delta])))
    (carried : events.map fst = deltas.map (.ContentBlockDelta index)) :
    Leads config include_raw (state []) (heard []) events (state deltas) (heard deltas) := by
  refine StreamText.Leads.run (fun chunk delta =>
    ∃ event : AnthropicChunk × JsonValue, chunk = .Ok event.1 event.2 ∧ event.1 = .ContentBlockDelta index delta) state heard ?_ ?_
  · rintro before delta after split _ ⟨event,rfl,isDelta⟩
    obtain ⟨valid,_,handled,after⟩ := step before delta after split
    exact Leads.event valid (by rw [isDelta]; exact handled) after
  · rw [chunksOf,forall₂_map_left_iff]
    rw [← forall₂_eq_eq_eq,forall₂_map_left_iff,forall₂_map_right_iff] at carried
    exact carried.imp fun event delta isDelta => ⟨event,rfl,isDelta⟩

theorem Leads.block (state : List Delta → AnthropicStreamState) (heard : List Delta → Accumulation) {b : BlockStream}
    {first final : List StreamPart} (valid : s.invalid_sequence = false)
    (started : s.block_start config b.index b.started = (state [],first)) (begun : acc.after first = .ok (heard []))
    (step : ∀ before delta after, b.deltas = before ++ delta :: after → (state before).invalid_sequence = false ∧
      ∃ parts, (state before).block_delta config b.index delta = some (state (before ++ [delta]),parts) ∧
        (heard before).after parts = .ok (heard (before ++ [delta])))
    (still : (state b.deltas).invalid_sequence = false)
    (stopped : (state b.deltas).block_stop config b.index = (t,final)) (ended : (heard b.deltas).after final = .ok later)
    (carried : events.map fst = b.events) :
    Leads config include_raw s acc events t later := by
  rw [BlockStream.events,cons_append] at carried
  obtain ⟨start,_,rfl,isStart,carried⟩ := List.map_eq_cons_iff.mp carried
  obtain ⟨deltas,_,rfl,isDeltas,carried⟩ := List.map_eq_append_iff.mp carried
  obtain ⟨stop,_,rfl,isStop,nothing⟩ := List.map_eq_cons_iff.mp carried
  rw [List.map_eq_nil_iff.mp nothing]
  have opens : Leads config include_raw s acc [start] (state []) (heard []) :=
    .event valid (by rw [isStart,handle_chunk,started]) begun
  have goes : Leads config include_raw (state []) (heard []) deltas (state b.deltas) (heard b.deltas) :=
    .deltas state heard step isDeltas
  have closes : Leads config include_raw (state b.deltas) (heard b.deltas) [stop] t later :=
    .event still (by rw [isStop,handle_chunk,stopped]) ended
  exact opens.trans (goes.trans closes)

end AnthropicStreamState

def ToolCallBlock.typed (block : ToolCallBlock) (piece : String) : String :=
  match block.provider_tool_input_type with
  | some input_type =>
    if block.first_delta then "\x7b\"type\": \"" ++ input_type ++ "\"," ++ ofList piece.toList.tail else piece
  | none => piece

def ToolCallBlock.heard (block : ToolCallBlock) : List String → ToolCallBlock
  | [] => block
  | first :: rest => { block with input := block.input ++ block.typed first ++ join rest,first_delta := false }

section
variable {config : Config}

theorem ToolCallBlock.heard_snoc (block : ToolCallBlock) (pieces : List String) (piece : String) :
    block.heard (pieces ++ [piece]) =
      { block.heard pieces with
        input := (block.heard pieces).input ++ (if pieces = [] then block.typed piece else piece),first_delta := false } := by
  cases pieces with
  | nil => simp [ToolCallBlock.heard]
  | cons => simp [ToolCallBlock.heard,String.append_assoc]

/-- Either nothing is heard, or the text of an object. -/
def Heard (pieces : List String) : Prop := pieces = [] ∨ ∃ rest, Pieces pieces ("\x7b" ++ rest)

theorem StreamsInput.heard (streams : StreamsInput config input started pieces) : Heard pieces := by
  obtain ⟨-,_,-,-,heard⟩ := streams
  split at heard
  · exact .inl heard
  · obtain ⟨_,pieces,reads⟩ := heard
    obtain ⟨rest,rfl,-⟩ := reads.begins
    exact .inr ⟨rest,pieces⟩

theorem sliceOne_first {first rest : String} {others : List String} (pieces : Pieces (first :: others) ("\x7b" ++ rest)) :
    sliceOne first = some (ofList first.toList.tail) := by
  obtain ⟨filled,whole⟩ := pieces
  have chars : first.toList ++ (join others).toList = '{' :: rest.toList := by
    rw [← String.toList_append,← String.join_cons,whole]
    simp
  cases known : first.toList with
  | nil => exact absurd (String.toList_eq_nil_iff.mp known) (filled first (by simp))
  | cons =>
    rw [known] at chars
    obtain ⟨rfl,-⟩ := List.cons_eq_cons.mp chars
    simp [sliceOne,known]
    rfl

theorem StreamsInput.empty (streams : StreamsInput config input started pieces) :
    non_empty_input config started = "" ∧ started.getD (.object []) = .object [] := by
  obtain ⟨rfl | rfl,-⟩ := streams <;> exact ⟨rfl,rfl⟩

end

def callBlock (config : Config) (m : OutputMapper) : ContentBlock → Option ToolCallBlock
  | .ToolUse id name _ caller =>
    some ⟨id,m.custom_name name,"",false,false,true,none,none,caller_metadata caller⟩
  | .ServerToolUse id name _ caller =>
    (AnthropicStreamState.serverTool config name none).map fun (provider_name,input_type,initial) =>
      ⟨id,m.custom_name provider_name,initial,true,m.is_dynamic provider_name,initial = "" || provider_name = "advisor",
        some provider_name,input_type,caller_metadata caller⟩
  | _ => none

def calling (m : OutputMapper) (block : ToolCallBlock) (deltas : List Delta) : ToolCallBlock :=
  if m.json_response_from_tool then block else block.heard (deltas.filterMap Delta.inputJson)

def ToolCallBlock.call (config : Config) (block : ToolCallBlock) : ToolCall :=
  ⟨block.tool_call_id,block.tool_name,AnthropicStreamState.closedInput config block,block.provider_executed,block.dynamic,
    block.caller⟩

def BlockStream.call (config : Config) (m : OutputMapper) (b : BlockStream) : Option ToolCall :=
  (callBlock config m b.block).map fun block => (calling m block b.deltas).call config

def BlockStream.shown (config : Config) (m : OutputMapper) (b : BlockStream) : OutputMapper × List Content :=
  match b.block with
  | .Text .. =>
    let (n,sources) := m.cite config (cited b.deltas)
    let text := Content.Text (joined Delta.text b.deltas) (citationsMetadata ((cited b.deltas).filter isWebCitation))
    (n,(if m.uses_json_response_tool then [] else [text]) ++ sources.map .Source)
  | .Thinking .. =>
    (m,[.Reasoning (joined Delta.thinking b.deltas) (signed b.deltas)])
  | .RedactedThinking data => (m,[.Reasoning "" (some (anthropic_metadata [("redactedData",.string data)]))])
  | .Compaction _ =>
    (m,[.Text (joined Delta.compaction b.deltas) (some (anthropic_metadata [("type",.string "compaction")]))])
  | .ToolUse _ name _ _ =>
    if m.uses_json_response_tool && name = "json" then
      ({ m with json_response_from_tool := true },[.Text (joined Delta.inputJson b.deltas) none])
    else (m,((b.call config m).map Content.ToolCall).toList)
  | .ServerToolUse id name _ _ =>
    (if (b.call config m).isSome then m.remembering id name else m,((b.call config m).map Content.ToolCall).toList)
  | .McpToolUse id name _ server_name =>
    let (m,call) := m.mcp_tool_use config id name none server_name
    (m,[.ToolCall call])
  | .ContainerUpload _ => (m,[])
  | block =>
    let (m,content) := m.map_result_block config block
    (m,content.getD [])

namespace AnthropicStreamState
variable {config : Config} {include_raw : Bool} {s : AnthropicStreamState} {b : BlockStream} {events : Events}

/-- A block takes the content so far on by what it shows. -/
def Adds (config : Config) (include_raw : Bool) (s : AnthropicStreamState) (b : BlockStream) (events : Events) : Prop :=
  ∀ before, Leads config include_raw s ⟨before,.empty⟩ events { s with mapper := (b.shown config s.mapper).1 }
    ⟨before ++ (b.shown config s.mapper).2,.empty⟩

theorem adds_at_start (idle : s.blocks = []) (valid : s.invalid_sequence = false) (parts : List StreamPart)
    (started : s.block_start config b.index b.started = ({ s with mapper := (b.shown config s.mapper).1 },parts))
    (shown : ∀ before, Accumulation.after ⟨before,.empty⟩ parts = .ok ⟨before ++ (b.shown config s.mapper).2,.empty⟩)
    (ignored : ∀ delta ∈ b.deltas, delta.inputJson.isSome) (carried : events.map fst = b.events) :
    Adds config include_raw s b events := by
  intro before
  have stopped : block_stop config { s with mapper := (b.shown config s.mapper).1 } b.index =
      ({ s with mapper := (b.shown config s.mapper).1 },[]) := by simp [block_stop,idle]
  refine Leads.block (fun _ => { s with mapper := (b.shown config s.mapper).1 })
    (fun _ => ⟨before ++ (b.shown config s.mapper).2,.empty⟩) valid started (shown before) ?_ valid stopped rfl carried
  intro earlier delta after split
  refine ⟨valid,[],?_,rfl⟩
  have isInput := ignored delta (by simp [split])
  cases delta with
  | InputJson => simp [block_delta,idle]
  | _ => cases isInput

theorem after_results {contents : List Content} (results : ∀ c ∈ contents, isResult c = true) (before : List Content) :
    Accumulation.after ⟨before,.empty⟩ (content_to_parts contents) = .ok ⟨before ++ contents,.empty⟩ := by
  induction contents generalizing before with
  | nil => simp [content_to_parts,Accumulation.after,pure,Except.pure]
  | cons c _ ih =>
    have later := ih (fun other mem => results other (by simp [mem])) (before ++ [c])
    rw [append_assoc,singleton_append] at later
    have isResult := results c (by simp)
    cases c with
    | ToolResult => exact later
    | Source => exact later
    | _ => cases isResult

theorem adds_results (idle : s.blocks = []) (valid : s.invalid_sequence = false)
    (started : s.block_start config b.index b.started = ({ s with mapper := (s.mapper.map_result_block config b.block).1 },
      content_to_parts ((s.mapper.map_result_block config b.block).2.getD [])))
    (shown : b.shown config s.mapper = ((s.mapper.map_result_block config b.block).1,(s.mapper.map_result_block config b.block).2.getD []))
    (none_ : b.deltas = []) (carried : events.map fst = b.events) : Adds config include_raw s b events := by
  have results := isResult_map_result_block config s.mapper b.block
  refine adds_at_start idle valid _ (by rw [shown]; exact started) (fun before => ?_) (by simp [none_]) carried
  rw [shown]
  exact after_results results before

theorem cite_snoc (config : Config) (citations : List JsonValue) (citation : JsonValue) : ∀ m : OutputMapper,
    m.cite config (citations ++ [citation]) =
      (((m.cite config citations).1.citation_source config citation).1,
        (m.cite config citations).2 ++ ((m.cite config citations).1.citation_source config citation).2.toList) := by
  induction citations with
  | nil => simp [cite]
  | cons _ _ ih => simp [cite,ih]

def holding (s : AnthropicStreamState) (mapper : OutputMapper) (index : Nat) (block : Block) : AnthropicStreamState :=
  { s with mapper := mapper,blocks := [(index,block)] }

section
variable {m : OutputMapper} {index : Nat} {block : Block}

@[simp] theorem holding_mapper : (s.holding m index block).mapper = m := rfl

@[simp] theorem holding_valid : (s.holding m index block).invalid_sequence = s.invalid_sequence := rfl

@[simp] theorem holding_lookup : (s.holding m index block).blocks.lookup index = some block := by simp [holding]

@[simp] theorem holding_open (other : Block) : (s.holding m index block).open_block index other = s.holding m index other := by
  simp [holding,open_block,put,remove]

theorem open_holding (idle : s.blocks = []) (m : OutputMapper) (index : Nat) (block : Block) :
    { s with mapper := m }.open_block index block = s.holding m index block := by
  simp [holding,open_block,idle,put,remove]

theorem holding_citation (config : Config) (m : OutputMapper) (index : Nat) (webs : List JsonValue) (citation : JsonValue) :
    (s.holding m index (.Text webs)).block_delta config index (.Citations citation) =
      some (s.holding (m.citation_source config citation).1 index (.Text (webs ++ [citation].filter isWebCitation)),
        ((m.citation_source config citation).2.map StreamPart.Source).toList) := by
  by_cases isWeb : (citation.get "type").bind JsonValue.as_str = some "web_search_result_location"
  · simp [block_delta,isWebCitation,isWeb]
    rfl
  · simp [block_delta,isWebCitation,isWeb]
    rfl

theorem stop_text (idle : s.blocks = []) (config : Config) (m : OutputMapper) (index : Nat) (citations : List JsonValue) :
    (s.holding m index (.Text citations)).block_stop config index =
      ({ s with mapper := m },[.TextEnd (part_id index) (citationsMetadata citations)]) := by
  simp [block_stop,holding,remove,idle,citationsMetadata]

theorem stop_reasoning (idle : s.blocks = []) (config : Config) (m : OutputMapper) (index : Nat) (thinking : Bool) :
    (s.holding m index (.Reasoning thinking)).block_stop config index =
      ({ s with mapper := m },[.ReasoningEnd (part_id index) none]) := by
  simp [block_stop,holding,remove,idle]

theorem stop_call (idle : s.blocks = []) (config : Config) (m : OutputMapper) (index : Nat) (block : ToolCallBlock) :
    (s.holding m index (.ToolCall block)).block_stop config index =
      ({ s with mapper := m },[.ToolInputEnd block.tool_call_id none,.ToolCall (block.call config)]) := by
  simp [block_stop,holding,remove,idle,ToolCallBlock.call]

end

theorem after_source (s : Accumulation) (source : Option Source) :
    s.after (source.map StreamPart.Source).toList = .ok ⟨s.content ++ (source.map Content.Source).toList,s.parts⟩ := by
  cases source <;> simp [Accumulation.after,Accumulation.step,Accumulation.push,pure,Except.pure,bind,Except.bind]

theorem cite_json (config : Config) (citations : List JsonValue) : ∀ m : OutputMapper,
    (m.cite config citations).1.uses_json_response_tool = m.uses_json_response_tool := by
  induction citations with
  | nil => exact fun _ => rfl
  | cons first _ ih => exact fun m => (ih _).trans (citation_source_alike config m first).1

theorem adds_text {text started : String} {citations unread : Option (List JsonValue)} (idle : s.blocks = [])
    (valid : s.invalid_sequence = false) (isText : b.block = .Text text citations) (isStart : b.started = .Text started unread)
    (heard : ∀ delta ∈ b.deltas, delta.text.isSome ∨ delta.citation.isSome) (carried : events.map fst = b.events) :
    Adds config include_raw s b events := by
  intro before
  let mapped (deltas : List Delta) := s.mapper.cite config (cited deltas)
  have snoc (deltas : List Delta) (citation : JsonValue) : mapped (deltas ++ [.Citations citation]) =
      (((mapped deltas).1.citation_source config citation).1,
        (mapped deltas).2 ++ ((mapped deltas).1.citation_source config citation).2.toList) := by
    simp only [mapped,cited_snoc,Delta.citation,Option.toList_some,cite_snoc]
  have same (deltas : List Delta) (text : String) : mapped (deltas ++ [.Text text]) = mapped deltas := by
    simp [mapped,cited_snoc,Delta.citation]
  have uses (deltas : List Delta) : (mapped deltas).1.uses_json_response_tool = s.mapper.uses_json_response_tool :=
    cite_json config _ _
  have shown : b.shown config s.mapper = ((mapped b.deltas).1,(if s.mapper.uses_json_response_tool then [] else
      [.Text (joined Delta.text b.deltas) (citationsMetadata ((cited b.deltas).filter isWebCitation))]) ++
        (mapped b.deltas).2.map .Source) := by
    simp [BlockStream.shown,isText,mapped]
  rw [shown]
  cases json : s.mapper.uses_json_response_tool
  · let webs (deltas : List Delta) := (cited deltas).filter isWebCitation
    have started : s.block_start config b.index b.started =
        (s.holding (mapped []).1 b.index (.Text (webs [])),[.TextStart (part_id b.index) none]) := by
      simp [isStart,block_start,json,← open_holding idle,mapped,webs,cited,cite]
    refine Leads.block (fun deltas => s.holding (mapped deltas).1 b.index (.Text (webs deltas)))
      (fun deltas => .opened before .text (part_id b.index) (joined Delta.text deltas) none ((mapped deltas).2.map .Source))
      valid started ?_ ?_ valid (stop_text idle config _ _ _) ?_ carried
    · rw [after_single]
      exact opened_start before .text _ none
    · intro earlier delta later split
      have told := heard delta (by simp [split])
      refine ⟨valid,?_⟩
      cases delta with
      | Text text =>
        refine ⟨[.text_delta (part_id b.index) text],?_,?_⟩
        · simp [block_delta,same,uses,json,webs,cited_snoc,Delta.citation]
        · rw [after_single,same,joined_snoc]
          exact opened_delta .text text none
      | Citations citation =>
        refine ⟨(((mapped earlier).1.citation_source config citation).2.map StreamPart.Source).toList,?_,?_⟩
        · rw [snoc,holding_citation]
          simp [webs,cited_snoc,Delta.citation]
        · rw [snoc,joined_snoc,after_source]
          simp [opened,Delta.text,Option.toList_map]
      | _ => simp [Delta.text,Delta.citation] at told
    · rw [after_single]
      exact (opened_end .text (citationsMetadata (webs b.deltas))).trans (by simp [said,webs])
  · have started : s.block_start config b.index b.started = ({ s with mapper := (mapped []).1 },[]) := by
      simp [isStart,block_start,json,mapped,cited,cite]
    have stopped : block_stop config { s with mapper := (mapped b.deltas).1 } b.index =
        ({ s with mapper := (mapped b.deltas).1 },[]) := by simp [block_stop,idle]
    refine Leads.block (fun deltas => { s with mapper := (mapped deltas).1 })
      (fun deltas => ⟨before ++ (mapped deltas).2.map .Source,.empty⟩) valid started ?_ ?_ valid stopped (by simp [Accumulation.after,pure,Except.pure]) carried
    · simp [mapped,cited,cite,Accumulation.after,pure,Except.pure]
    · intro earlier delta later split
      have told := heard delta (by simp [split])
      refine ⟨valid,?_⟩
      cases delta with
      | Text =>
        refine ⟨[],?_,by rw [same]; rfl⟩
        simp [block_delta,same,uses,json]
      | Citations citation =>
        refine ⟨(((mapped earlier).1.citation_source config citation).2.map StreamPart.Source).toList,?_,?_⟩
        · rw [snoc]
          simp [block_delta,idle]
        · rw [snoc,after_source]
          simp [Option.toList_map]
      | _ => simp [Delta.text,Delta.citation] at told

theorem adds_opened (m : OutputMapper) (block : Block) (kind : Kind) (text : List Delta → String)
    (metadata : List Delta → Option ProviderMetadata) (valid : s.invalid_sequence = false)
    (started : s.block_start config b.index b.started =
      (s.holding m b.index block,[kind.startPart (part_id b.index) (metadata [])])) (empty : text [] = "")
    (step : ∀ earlier delta later, b.deltas = earlier ++ delta :: later → ∃ parts,
      (s.holding m b.index block).block_delta config b.index delta = some (s.holding m b.index block,parts) ∧
        ∀ before, (Accumulation.opened before kind (part_id b.index) (text earlier) (metadata earlier) []).after parts =
          .ok (.opened before kind (part_id b.index) (text (earlier ++ [delta])) (metadata (earlier ++ [delta])) []))
    (stopped : (s.holding m b.index block).block_stop config b.index =
      ({ s with mapper := m },[kind.endPart (part_id b.index) none]))
    (shown : b.shown config s.mapper = (m,[kind.said (text b.deltas) (metadata b.deltas)]))
    (carried : events.map fst = b.events) : Adds config include_raw s b events := by
  intro before
  rw [shown]
  refine Leads.block (fun _ => s.holding m b.index block)
    (fun deltas => .opened before kind (part_id b.index) (text deltas) (metadata deltas) []) valid started ?_ ?_ valid stopped
    ?_ carried
  · rw [after_single,empty]
    exact opened_start before kind _ _
  · intro earlier delta later split
    obtain ⟨parts,handled,after⟩ := step earlier delta later split
    exact ⟨valid,parts,handled,after before⟩
  · rw [after_single]
    exact opened_end kind none

variable {unread : Option String} {m : OutputMapper} {bs : List BlockStream}

theorem adds_thinking {thinking started : String} {signature : Option String} (idle : s.blocks = [])
    (valid : s.invalid_sequence = false) (isThinking : b.block = .Thinking thinking signature)
    (isStart : b.started = .Thinking started unread)
    (heard : ∀ delta ∈ b.deltas, delta.thinking.isSome ∨ delta.signature.isSome) (carried : events.map fst = b.events) :
    Adds config include_raw s b events := by
  refine adds_opened s.mapper (.Reasoning true) .reasoning (joined Delta.thinking) signed valid ?_ rfl ?_
    (stop_reasoning idle ..) (by simp [BlockStream.shown,isThinking,said,signed]) carried
  · rw [isStart]
    simp [block_start,← open_holding idle,signed,startPart]
  · intro earlier delta later split
    have told := heard delta (by simp [split])
    cases delta with
    | Thinking thinking =>
      refine ⟨_,rfl,fun before => ?_⟩
      rw [after_single,joined_snoc]
      refine (opened_delta .reasoning thinking none).trans ?_
      simp [Delta.thinking,signed,Delta.signature]
    | Signature signature =>
      refine ⟨[.ReasoningDelta (part_id b.index) "" (some (anthropic_metadata [("signature",.string signature)]))],?_,fun before => ?_⟩
      · simp [block_delta]
      · rw [after_single,joined_snoc]
        refine (opened_delta .reasoning "" _).trans ?_
        simp [Delta.thinking,signed,Delta.signature]
    | _ => simp [Delta.thinking,Delta.signature] at told

theorem adds_redacted {data : String} (idle : s.blocks = []) (valid : s.invalid_sequence = false)
    (isRedacted : b.block = .RedactedThinking data) (isStart : b.started = .RedactedThinking data) (none_ : b.deltas = [])
    (carried : events.map fst = b.events) : Adds config include_raw s b events := by
  refine adds_opened s.mapper (.Reasoning false) .reasoning (fun _ => "")
    (fun _ => some (anthropic_metadata [("redactedData",.string data)])) valid ?_ rfl ?_ (stop_reasoning idle ..)
    (by simp [BlockStream.shown,isRedacted,said]) carried
  · rw [isStart]
    simp [block_start,← open_holding idle,startPart]
  · intro earlier delta later split
    simp [none_] at split

theorem adds_compaction {content : Option String} (idle : s.blocks = []) (valid : s.invalid_sequence = false)
    (isCompaction : b.block = .Compaction content) (isStart : b.started = .Compaction unread)
    (heard : ∀ delta ∈ b.deltas, delta.compaction.isSome) (carried : events.map fst = b.events) :
    Adds config include_raw s b events := by
  refine adds_opened s.mapper (.Text []) .text (joined compaction)
    (fun _ => some (anthropic_metadata [("type",.string "compaction")])) valid ?_ rfl ?_ (stop_text idle ..)
    (by simp [BlockStream.shown,isCompaction,said]) carried
  · rw [isStart]
    simp [block_start,← open_holding idle,startPart]
  · intro earlier delta later split
    have told := heard delta (by simp [split])
    cases delta with
    | Compaction =>
      obtain ⟨text,rfl⟩ := Option.isSome_iff_exists.mp told
      refine ⟨_,rfl,fun before => ?_⟩
      rw [joined_snoc]
      exact (after_single ..).trans (opened_delta .text _ none)
    | _ => cases told

theorem adds_json {id name : String} {caller : Option Caller} (idle : s.blocks = [])
    (valid : s.invalid_sequence = false) (isUse : b.block = .ToolUse id name input caller)
    (isStart : b.started = .ToolUse id name started caller) (json : (s.mapper.uses_json_response_tool && name = "json") = true)
    (heard : ∀ delta ∈ b.deltas, delta.inputJson.isSome) (carried : events.map fst = b.events) :
    Adds config include_raw s b events := by
  refine adds_opened { s.mapper with json_response_from_tool := true } (.Text []) .text
    (joined inputJson) (fun _ => none) valid ?_ rfl ?_ (stop_text idle ..)
    (by simp [BlockStream.shown,isUse,json,said]) carried
  · rw [isStart]
    simp [block_start,← open_holding idle,startPart,json]
  · intro earlier delta later split
    have told := heard delta (by simp [split])
    cases delta with
    | InputJson piece =>
      by_cases empty : piece = ""
      · exact ⟨[],by simp [block_delta,empty],fun before => by rw [joined_snoc]; simp [inputJson,empty]; rfl⟩
      · refine ⟨[.text_delta (part_id b.index) piece],by simp [block_delta,empty],fun before => ?_⟩
        rw [joined_snoc]
        exact (after_single ..).trans (opened_delta .text _ none)
    | _ => cases told

theorem input_json_heard {block : ToolCallBlock} {rest : List String} {piece : String}
    (heard : Heard (pieces ++ piece :: rest)) :
    (s.holding m index (.ToolCall (block.heard pieces))).input_json index (block.heard pieces) piece =
      some (s.holding m index (.ToolCall (block.heard (pieces ++ [piece]))),
        [.ToolInputDelta block.tool_call_id (if pieces = [] then block.typed piece else piece) none]) := by
  rw [ToolCallBlock.heard_snoc]
  cases pieces with
  | cons => simp [input_json,ToolCallBlock.heard]
  | nil =>
    obtain nothing | ⟨text,pieces⟩ := heard
    · cases nothing
    have sliced := sliceOne_first pieces
    cases begins : block.first_delta <;> cases typed : block.provider_tool_input_type <;>
      simp [input_json,ToolCallBlock.heard,ToolCallBlock.typed,begins,typed,sliced]

theorem adds_call (m : OutputMapper) (block : ToolCallBlock) (idle : s.blocks = []) (valid : s.invalid_sequence = false)
    (started : s.block_start config b.index b.started =
      (s.holding m b.index (.ToolCall block),[tool_input_start block]))
    (shown : b.shown config s.mapper = (m,[.ToolCall ((calling m block b.deltas).call config)]))
    (inputs : ∀ delta ∈ b.deltas, delta.inputJson.isSome) (heard : Heard (b.deltas.filterMap Delta.inputJson))
    (carried : events.map fst = b.events) : Adds config include_raw s b events := by
  intro before
  rw [shown]
  have nothing : calling m block [] = block := by simp [calling,ToolCallBlock.heard]
  refine Leads.block (fun deltas => s.holding m b.index (.ToolCall (calling m block deltas))) (fun _ => ⟨before,.empty⟩) valid
    (by rw [nothing]; exact started) rfl ?_ valid (stop_call idle ..) rfl carried
  intro earlier delta later split
  refine ⟨valid,?_⟩
  have isInput := inputs delta (by simp [split])
  obtain ⟨piece,rfl⟩ : ∃ piece, delta = .InputJson piece := by
    cases delta <;> first | exact ⟨_,rfl⟩ | cases isInput
  rw [split,filterMap_append,filterMap_cons] at heard
  have filled : piece ≠ "" := by
    obtain nothing | ⟨rest,pieces⟩ := heard
    · simp [inputJson] at nothing
    · exact pieces.1 piece (by simp [inputJson])
  cases json : m.json_response_from_tool with
  | true =>
    refine ⟨[],?_,rfl⟩
    simp [block_delta,filled,json,calling]
  | false =>
    have told : calling m block earlier = block.heard (earlier.filterMap inputJson) := by simp [calling,json]
    refine ⟨_,?_,(rfl : Accumulation.after _ [.ToolInputDelta block.tool_call_id (if earlier.filterMap inputJson = [] then
      block.typed piece else piece) none] = _)⟩
    simp only [block_delta,filled,if_false,holding_mapper,json,Bool.false_eq_true,holding_lookup,told]
    rw [input_json_heard heard]
    simp [calling,json,inputJson]

theorem remembering_json (m : OutputMapper) (id name : String) :
    (m.remembering id name).json_response_from_tool = m.json_response_from_tool := by
  unfold remembering
  split <;> rfl

theorem serverTool_empty (config : Config) (empty : non_empty_input config started = "") (name : String) :
    serverTool config name started = serverTool config name none := by
  simp only [serverTool,empty]
  rfl

theorem adds (carries : b.Carries config) (idle : s.blocks = []) (valid : s.invalid_sequence = false)
    (carried : events.map fst = b.events) : Adds config include_raw s b events := by
  obtain ⟨_,_,start,_⟩ := b
  unfold BlockStream.Carries at carries
  dsimp only at carries
  split at carries
  · exact adds_text idle valid rfl rfl carries.2.1 carried
  · exact adds_thinking idle valid rfl rfl carries.2.1 carried
  · exact adds_compaction idle valid rfl rfl carries.1 carried
  · rename_i id name input caller _ _ started _
    obtain ⟨same,inputs,streams⟩ := carries
    obtain ⟨rfl,rfl,rfl⟩ := same
    cases json : s.mapper.uses_json_response_tool && name = "json"
    · refine adds_call s.mapper ⟨id,s.mapper.custom_name name,"",false,false,true,none,none,caller_metadata caller⟩
        idle valid ?_ ?_ inputs streams.heard carried
      · simp [block_start,json,streams.empty.1,← open_holding idle]
      · simp [BlockStream.shown,json,BlockStream.call,callBlock]
    · exact adds_json idle valid rfl rfl json inputs carried
  · rename_i id name input caller _ _ started _
    obtain ⟨same,inputs,streams⟩ := carries
    obtain ⟨rfl,rfl,rfl⟩ := same
    have server := serverTool_empty config streams.empty.1 name
    cases known : serverTool config name none with
    | none =>
      refine adds_at_start idle valid [] ?_ ?_ inputs carried
      · simp [block_start,server,known,BlockStream.shown,BlockStream.call,callBlock]
      · simp [BlockStream.shown,BlockStream.call,callBlock,known,Accumulation.after,pure,Except.pure]
    | some tool =>
      obtain ⟨provider_name,input_type,initial⟩ := tool
      refine adds_call (s.mapper.remembering id name) ⟨id,s.mapper.custom_name provider_name,initial,true,
        s.mapper.is_dynamic provider_name,initial = "" || provider_name = "advisor",some provider_name,input_type,
        caller_metadata caller⟩ idle valid ?_ ?_ inputs streams.heard carried
      · simp [block_start,server,known,remembering,← open_holding idle]
      · simp [BlockStream.shown,BlockStream.call,callBlock,known,calling,remembering_json]
  · rename_i id name input server_name _ _ started _
    obtain ⟨same,inputs,streams⟩ := carries
    obtain ⟨rfl,rfl,rfl⟩ := same
    have alike : s.mapper.mcp_tool_use config id name started server_name = s.mapper.mcp_tool_use config id name none server_name := by
      simp [mcp_tool_use,streams.empty.2]
    refine adds_at_start idle valid ([.ToolCall (s.mapper.mcp_tool_use config id name none server_name).2]) ?_ ?_ inputs carried
    · simp [block_start,BlockStream.shown,alike]
    · intro before
      rfl
  · rename_i noText noThinking noCompaction noToolUse noServerToolUse noMcpToolUse
    obtain ⟨rfl,rfl⟩ := carries
    cases start with
    | Text => exact (noText _ _ _ _ rfl rfl).elim
    | Thinking => exact (noThinking _ _ _ _ rfl rfl).elim
    | Compaction => exact (noCompaction _ _ rfl rfl).elim
    | ToolUse => exact (noToolUse _ _ _ _ _ _ _ _ rfl rfl).elim
    | ServerToolUse => exact (noServerToolUse _ _ _ _ _ _ _ _ rfl rfl).elim
    | McpToolUse => exact (noMcpToolUse _ _ _ _ _ _ _ _ rfl rfl).elim
    | RedactedThinking => exact adds_redacted idle valid rfl rfl rfl carried
    | ContainerUpload | Fallback | Unknown =>
      refine adds_at_start idle valid [] rfl (fun before => ?_) (by simp) carried
      simp [BlockStream.shown,map_result_block,Accumulation.after,pure,Except.pure]
    | _ => exact adds_results idle valid rfl rfl rfl carried

def shownAll (config : Config) : OutputMapper → List BlockStream → OutputMapper × List Content
  | m,[] => (m,[])
  | m,b :: rest =>
    let (m,first) := b.shown config m
    let (m,others) := shownAll config m rest
    (m,first ++ others)

theorem leads_all (carries : ∀ b ∈ bs, b.Carries config) (idle : s.blocks = [])
    (valid : s.invalid_sequence = false) (carried : events.map fst = bs.flatMap BlockStream.events) (before : List Content) :
    Leads config include_raw s ⟨before,.empty⟩ events { s with mapper := (shownAll config s.mapper bs).1 }
      ⟨before ++ (shownAll config s.mapper bs).2,.empty⟩ := by
  induction bs generalizing s before events with
  | nil =>
    rw [flatMap_nil,map_eq_nil_iff] at carried
    subst carried
    simpa [shownAll] using Leads.none s ⟨before,.empty⟩
  | cons b _ ih =>
    rw [flatMap_cons] at carried
    obtain ⟨here,_,rfl,isBlock,others⟩ := List.map_eq_append_iff.mp carried
    have first : Leads config include_raw s ⟨before,.empty⟩ here { s with mapper := (b.shown config s.mapper).1 }
        ⟨before ++ (b.shown config s.mapper).2,.empty⟩ := adds (carries b (by simp)) idle valid isBlock before
    have next := ih (s := { s with mapper := (b.shown config s.mapper).1 }) (fun b mem => carries b (by simp [mem])) idle
      valid others (before ++ (b.shown config s.mapper).2)
    rw [append_assoc] at next
    exact first.trans next

def messageEvents (message : MessageStart) (bs : List BlockStream) (delta : MessageDeltaBody) (usage : AnthropicUsage)
    (input_transformations : Option JsonValue) (context_management : Option ResponseContextManagement) : List AnthropicChunk :=
  .MessageStart message :: bs.flatMap BlockStream.events ++
    [.MessageDelta delta usage input_transformations context_management,.MessageStop]

theorem accumulate_message {custom_key : Option String} {message : MessageStart}
    {delta : MessageDeltaBody} {usage : AnthropicUsage} {input_transformations : Option JsonValue}
    {context_management : Option ResponseContextManagement} (carries : ∀ b ∈ bs, b.Carries config)
    (bare : message.content.getD [] = []) (carried : events.map fst =
      messageEvents message bs delta usage input_transformations context_management) :
    accumulate (told config include_raw (.new m custom_key) events) = .ok (shownAll config m bs).2 := by
  rw [messageEvents,cons_append] at carried
  obtain ⟨first,_,rfl,isStart,carried⟩ := List.map_eq_cons_iff.mp carried
  obtain ⟨middle,_,rfl,areBlocks,carried⟩ := List.map_eq_append_iff.mp carried
  have starts : Leads config include_raw (.new m custom_key) ⟨[],.empty⟩ [first]
      ((new m custom_key).message_start config message first.2).1 ⟨[],.empty⟩ :=
    .event rfl (by rw [isStart]; rfl) (by simp [new,bare]; rfl)
  let begun := ((new m custom_key).message_start config message first.2).1
  have goes : Leads config include_raw begun ⟨[],.empty⟩ middle { begun with mapper := (shownAll config m bs).1 }
      ⟨(shownAll config m bs).2,.empty⟩ := leads_all carries rfl rfl areBlocks []
  obtain ⟨ending,stop,rfl,isDelta,carried⟩ := List.map_eq_cons_iff.mp carried
  obtain ⟨stop,_,rfl,isStop,nothing⟩ := List.map_eq_cons_iff.mp carried
  rw [List.map_eq_nil_iff.mp nothing]
  let ended := message_delta { begun with mapper := (shownAll config m bs).1 } delta usage input_transformations
    context_management ending.2
  have ends : Leads config include_raw { begun with mapper := (shownAll config m bs).1 } ⟨(shownAll config m bs).2,.empty⟩
      [ending] ended ⟨(shownAll config m bs).2,.empty⟩ :=
    .event rfl (by rw [isDelta]; rfl) rfl
  have stops : Leads config include_raw ended ⟨(shownAll config m bs).2,.empty⟩ [stop] ended.message_stop.1
      ⟨(shownAll config m bs).2,.empty⟩ :=
    .event rfl (by rw [isStop]; rfl) rfl
  exact StreamText.Leads.accumulated (starts.trans (goes.trans (ends.trans stops))) (fun part mem => by cases mem)

end AnthropicStreamState

end Ferrin.Anthropic
