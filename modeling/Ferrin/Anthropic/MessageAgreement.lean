import Ferrin.Anthropic.StreamedMessage
import Ferrin.Json.Object

/-!
Complete and streamed messages. Block by block the stream adds up to the content
of the complete message, except for what some blocks lose or gain on the way
(`message_complete_streamed_agree`).
-/
namespace Ferrin.Anthropic
open Ferrin.Stream Ferrin.StreamText List OutputMapper BlockStream AnthropicStreamState JsonValue
open AnthropicStreamState (closedInput messageEvents serverTool told)
open JsonValue (as_object)
open Delta (inputJson)
open Option (getD_some toList_map)

/-! ### The same content -/

/-- Metadata without any member is none. -/
def plain (metadata : Option ProviderMetadata) : Option ProviderMetadata := metadata.filter (·.any (·.2 ≠ []))

def unnamed : Source → Source
  | .Url _ url title metadata => .Url "" url title (plain metadata)
  | .Document _ media_type title filename metadata => .Document "" media_type title filename (plain metadata)

def bare : Content → Content
  | .Text text metadata => .Text text (plain metadata)
  | .Reasoning text metadata => .Reasoning text (plain metadata)
  | .ToolCall call => .ToolCall { call with provider_metadata := plain call.provider_metadata }
  | .ToolResult result => .ToolResult { result with provider_metadata := plain result.provider_metadata }
  | .Custom kind metadata => .Custom kind (plain metadata)
  | .Source source => .Source (unnamed source)
  | part => part

def SameValue (config : Config) (a b : String) : Prop := ∃ value, config.from_str a = some value ∧ config.from_str b = some value

/-- The same content. The inputs of calls are compared as values, and so are, with the JSON response tool, texts without
    metadata: these are the responses. -/
def Same (config : Config) (json : Bool) (a b : Content) : Prop :=
  match a,b with
  | .ToolCall a,.ToolCall b =>
    bare (.ToolCall { a with input := "" }) = bare (.ToolCall { b with input := "" }) ∧ SameValue config a.input b.input
  | .Text a none,.Text b none => if json then SameValue config a b else a = b
  | a,b => bare a = bare b

def emptyInput (input : Option JsonValue) : Bool := object (input.getD (.object [])) = []

def hasSource (documents : Nat) (citation : JsonValue) : Bool :=
  match (citation.get "type").bind JsonValue.as_str with
  | some "web_search_result_location" => ((citation.get "url").bind JsonValue.as_str).isSome
  | some "page_location" | some "char_location" =>
    ((citation.get "document_index").bind JsonValue.as_u64).any (· < documents)
  | _ => false

/-- What the blocks so far leave behind: whether the JSON response tool was called, and the number of documents. -/
structure Position where
  json : Bool
  documents : Nat

def Position.next (uses : Bool) (at_ : Position) : ContentBlock → Position
  | .ToolUse _ name _ _ => { at_ with json := at_.json || uses && name = "json" }
  | .WebFetchToolResult _ content _ =>
    if (content.get "type").bind JsonValue.as_str = some "web_fetch_result" then { at_ with documents := at_.documents + 1 } else at_
  | _ => at_

def BlockStream.Agrees (uses : Bool) (at_ : Position) (b : BlockStream) : Prop :=
  match b.block with
  | .Text _ citations => uses → ∀ citation ∈ citations.getD [], ¬ hasSource at_.documents citation
  | .Thinking _ signature => signature ≠ some "" ∧ (b.deltas.filterMap Delta.signature).length ≤ 1
  | .ToolUse _ name input _ => if uses && name = "json" then ¬ emptyInput input else emptyInput input ∨ ¬ at_.json
  | .ServerToolUse _ name input _ =>
    match name with
    | "text_editor_code_execution" | "bash_code_execution" => ¬ emptyInput input ∧ ¬ at_.json
    | "code_execution" =>
      emptyInput input ∨ ((object (input.getD (.object []))).lookup "code").isSome ∧ ¬ at_.json
    | "web_search" | "web_fetch" | "tool_search_tool_regex" | "tool_search_tool_bm25" => emptyInput input ∨ ¬ at_.json
    | "advisor" => emptyInput input
    | _ => True
  | .McpToolUse _ _ input _ => emptyInput input
  | .ContainerUpload _ => False
  | _ => True

def AllAgree (uses : Bool) : Position → List BlockStream → Prop
  | _,[] => True
  | at_,b :: rest => b.Agrees uses at_ ∧ AllAgree uses (at_.next uses b.block) rest

/-- What `serde_json` makes of nothing, of an empty object and of a type alone. -/
structure ReadsEmpty (config : Config) : Prop where
  nothing : config.from_str "" = none
  read : config.from_str "\x7b\x7d" = some (.object [])
  written : config.to_string (.object []) = "\x7b\x7d"
  typed : ∀ kind ∈ inputTypes,
    config.from_str (config.to_string (.object [("type",.string kind)])) = some (.object [("type",.string kind)])

namespace OutputMapper
variable {config : Config} {m n : OutputMapper}

/-- The same but for the number of ids drawn. -/
def Like (m n : OutputMapper) : Prop := n = { m with generated := n.generated }

theorem like_refl (m : OutputMapper) : m.Like m := rfl

theorem document_citation_like (like : m.Like n) (citation : JsonValue) (keys : List (String × String)) :
    (m.document_citation config citation keys).1.Like (n.document_citation config citation keys).1 ∧
      (m.document_citation config citation keys).2.map unnamed = (n.document_citation config citation keys).2.map unnamed := by
  rw [like]
  unfold document_citation
  dsimp only
  generalize ((citation.get "document_index").bind as_u64).bind (m.citation_documents[·]?) = found
  cases found <;> exact ⟨rfl,rfl⟩

theorem citation_source_like (config : Config) (like : m.Like n) (citation : JsonValue) :
    (m.citation_source config citation).1.Like (n.citation_source config citation).1 ∧
      (m.citation_source config citation).2.map unnamed = (n.citation_source config citation).2.map unnamed := by
  unfold citation_source
  split
  · rw [like]
    unfold web_citation
    refine ⟨rfl,?_⟩
    cases (citation.get "url").bind as_str <;> rfl
  · exact document_citation_like like citation _
  · exact document_citation_like like citation _
  · exact ⟨like,rfl⟩

theorem cite_like (config : Config) (citations : List JsonValue) : ∀ {m n : OutputMapper}, m.Like n →
    (m.cite config citations).1.Like (n.cite config citations).1 ∧
      (m.cite config citations).2.map unnamed = (n.cite config citations).2.map unnamed := by
  induction citations with
  | nil => exact fun like => ⟨like,rfl⟩
  | cons citation _ ih =>
    intro m n like
    obtain ⟨next,same⟩ := citation_source_like config like citation
    obtain ⟨last,others⟩ := ih next
    refine ⟨last,?_⟩
    have first := congrArg Option.toList same
    rw [toList_map,toList_map] at first
    simp only [cite,map_append,first,others]

theorem searchSources_like (config : Config) (results : List JsonValue) : ∀ j k : Nat,
    (searchSources config j results).map unnamed = (searchSources config k results).map unnamed := by
  induction results with
  | nil => exact fun _ _ => rfl
  | cons _ _ ih =>
    intro j k
    unfold searchSources
    split
    · exact ih j k
    · rw [map_cons,map_cons,ih (j + 1) (k + 1)]
      rfl

theorem map_result_block_like (config : Config) (like : m.Like n) (block : ContentBlock) :
    (m.map_result_block config block).1.Like (n.map_result_block config block).1 ∧
      ((m.map_result_block config block).2.getD []).map bare = ((n.map_result_block config block).2.getD []).map bare := by
  rw [like]
  unfold map_result_block
  cases block
  all_goals try exact ⟨rfl,rfl⟩
  case WebFetchToolResult id content caller =>
    dsimp only
    split <;> exact ⟨rfl,rfl⟩
  case WebSearchToolResult id content caller =>
    dsimp only
    unfold web_search
    split
    · refine ⟨rfl,?_⟩
      have sources := searchSources_like config ‹_› m.generated n.generated
      simp only [getD_some,map_cons,map_map]
      refine congrArg₂ List.cons rfl ?_
      simpa [Function.comp_def,bare] using congrArg (List.map Content.Source) sources
    · exact ⟨rfl,rfl⟩

def position (m : OutputMapper) : Position := ⟨m.json_response_from_tool,m.citation_documents.length⟩

theorem document_citation_own (m : OutputMapper) (citation : JsonValue) (keys : List (String × String)) :
    m.Like (m.document_citation config citation keys).1 := by
  unfold document_citation
  split <;> exact rfl

theorem citation_source_own (m : OutputMapper) (citation : JsonValue) : m.Like (m.citation_source config citation).1 := by
  unfold citation_source
  split
  · exact rfl
  · exact document_citation_own m citation _
  · exact document_citation_own m citation _
  · exact rfl

theorem like_trans {o : OutputMapper} (first : m.Like n) (second : n.Like o) : m.Like o := by
  rw [Like,second,first]

theorem cite_own (config : Config) (citations : List JsonValue) : ∀ m : OutputMapper, m.Like (m.cite config citations).1 := by
  induction citations with
  | nil => exact like_refl
  | cons citation _ ih => exact fun m => like_trans (citation_source_own m citation) (ih _)

theorem document_citation_source (m : OutputMapper) (citation : JsonValue) (keys : List (String × String)) :
    (m.document_citation config citation keys).2.isSome =
      ((citation.get "document_index").bind JsonValue.as_u64).any (· < m.citation_documents.length) := by
  unfold document_citation
  cases (citation.get "document_index").bind as_u64 with
  | none => rfl
  | some n =>
    by_cases within : n < m.citation_documents.length <;> simp [within]

theorem citation_source_isSome (m : OutputMapper) (citation : JsonValue) :
    (m.citation_source config citation).2.isSome = hasSource m.citation_documents.length citation := by
  unfold citation_source hasSource
  generalize (citation.get "type").bind as_str = kind
  split
  · unfold web_citation
    dsimp only
    cases (citation.get "url").bind as_str <;> rfl
  · exact document_citation_source m citation _
  · exact document_citation_source m citation _
  · simp_all

theorem cite_nothing (citations : List JsonValue) : ∀ m : OutputMapper,
    (m.cite config citations).2 = [] ↔ ∀ citation ∈ citations, ¬ hasSource m.citation_documents.length citation := by
  induction citations with
  | nil => simp [cite]
  | cons citation _ ih =>
    intro m
    have documents : (m.citation_source config citation).1.citation_documents = m.citation_documents := by
      rw [citation_source_own m citation]
    have first : (m.citation_source config citation).2.toList = [] ↔ ¬ hasSource m.citation_documents.length citation := by
      rw [← citation_source_isSome]
      cases (m.citation_source config citation).2 <;> simp
    simp only [cite,append_eq_nil_iff,forall_mem_cons,first,ih,documents]

end OutputMapper

variable {a text : String} {pieces : List String} {json : Bool} {as : List Content}

section
variable {config : Config} {input started : Option JsonValue} {deltas : List Delta} {m : OutputMapper} {block : ToolCallBlock}

theorem sameValue_iff {b : String} {x y : JsonValue} (first : config.from_str a = some x) (second : config.from_str b = some y) :
    SameValue config a b ↔ x = y := by
  simp [SameValue,first,second,eq_comm]

theorem typed_append (block : ToolCallBlock) {first : String} (rest : String) (filled : first ≠ "") :
    block.typed (first ++ rest) = block.typed first ++ rest := by
  have tail : (first ++ rest).toList.tail = first.toList.tail ++ rest.toList := by
    rw [String.toList_append,tail_append_of_ne_nil (mt String.toList_eq_nil_iff.mp filled)]
  unfold ToolCallBlock.typed
  split
  · split
    · rw [tail]
      simp [String.append_assoc]
    · rfl
  · rfl

theorem heard_input (block : ToolCallBlock) (split : Pieces pieces text) (filled : text ≠ "") :
    (block.heard pieces).input = block.input ++ block.typed text := by
  obtain ⟨all,rfl⟩ := split
  cases pieces with
  | nil => exact absurd rfl filled
  | cons first =>
    rw [String.join_cons,typed_append block _ (all first (by simp)),← String.append_assoc]
    rfl

theorem StreamsInput.cases (streams : StreamsInput config input started (deltas.filterMap inputJson)) (m : OutputMapper)
    (block : ToolCallBlock) : ∃ entries, input.getD (.object []) = .object entries ∧ entries.lookup "type" = none ∧
      (emptyInput input = true ↔ entries = []) ∧
      (entries = [] ∧ calling m block deltas = block ∨ ∃ text, entries ≠ [] ∧ Reads config text entries ∧
        joined inputJson deltas = text ∧
        (m.json_response_from_tool = true ∧ calling m block deltas = block ∨
          m.json_response_from_tool = false ∧ (calling m block deltas).input = block.input ++ block.typed text)) := by
  obtain ⟨-,entries,isObject,untyped,heard⟩ := streams
  refine ⟨entries,isObject,untyped,by simp [emptyInput,isObject,object,as_object],?_⟩
  split at heard
  · rename_i empty
    exact .inl ⟨empty,by simp [calling,heard,ToolCallBlock.heard]⟩
  · rename_i filled
    obtain ⟨text,split,reads⟩ := heard
    refine .inr ⟨text,filled,reads,split.2,?_⟩
    obtain ⟨_,rfl,-⟩ := reads.begins
    cases json : m.json_response_from_tool with
    | true => exact .inl ⟨rfl,by simp [calling,json]⟩
    | false =>
      refine .inr ⟨rfl,?_⟩
      simp only [calling,json,Bool.false_eq_true,if_false]
      exact heard_input block split (by simp)

theorem closedInput_plain (other : block.provider_tool_name ≠ some "code_execution") :
    closedInput config block = if block.input = "" then "\x7b\x7d" else block.input := by
  simp [closedInput,other]

theorem calling_names (m : OutputMapper) (block : ToolCallBlock) (deltas : List Delta) :
    calling m block deltas = { block with input := (calling m block deltas).input,first_delta := (calling m block deltas).first_delta } := by
  unfold calling
  split
  · rfl
  · cases deltas.filterMap inputJson <;> rfl

theorem same_input_plain (laws : ReadsEmpty config)
    (streams : StreamsInput config input started (deltas.filterMap inputJson)) (fresh : block.input = "")
    (untyped : block.provider_tool_input_type = none) (other : block.provider_tool_name ≠ some "code_execution") :
    SameValue config (config.to_string (input.getD (.object []))) (closedInput config (calling m block deltas)) ↔
      (emptyInput input ∨ ¬ m.json_response_from_tool) := by
  have still : (calling m block deltas).provider_tool_name ≠ some "code_execution" := by rw [calling_names]; exact other
  obtain ⟨_,isObject,-,empty,⟨rfl,unheard⟩ | ⟨text,filled,reads,-,heard⟩⟩ := streams.cases m block
  · rw [closedInput_plain still,unheard,fresh,isObject,laws.written]
    simp [empty,sameValue_iff laws.read laws.read]
  · obtain ⟨json,unheard⟩ | ⟨json,heard⟩ := heard
    · rw [closedInput_plain still,unheard,fresh,isObject]
      simp [empty,filled,json,sameValue_iff reads.written laws.read]
    · have isText : block.typed text = text := by simp [ToolCallBlock.typed,untyped]
      have some_ : text ≠ "" := by
        obtain ⟨_,rfl,-⟩ := reads.begins
        simp
      rw [closedInput_plain still,heard,fresh,isObject,isText]
      simp [some_,json,sameValue_iff reads.written reads.read]

theorem same_input_advisor (laws : ReadsEmpty config)
    (streams : StreamsInput config input started (deltas.filterMap inputJson)) (begun : block.input = "\x7b\x7d")
    (untyped : block.provider_tool_input_type = none) (other : block.provider_tool_name ≠ some "code_execution") :
    SameValue config (config.to_string (input.getD (.object []))) (closedInput config (calling m block deltas)) ↔
      emptyInput input := by
  have still : (calling m block deltas).provider_tool_name ≠ some "code_execution" := by rw [calling_names]; exact other
  obtain ⟨_,isObject,-,empty,⟨rfl,unheard⟩ | ⟨text,filled,reads,-,heard⟩⟩ := streams.cases m block
  · rw [closedInput_plain still,unheard,begun,isObject,laws.written]
    simp [empty,sameValue_iff laws.read laws.read]
  · obtain ⟨_,unheard⟩ | ⟨_,heard⟩ := heard
    · rw [closedInput_plain still,unheard,begun,isObject]
      simp [empty,filled,sameValue_iff reads.written laws.read]
    · have isText : block.typed text = text := by simp [ToolCallBlock.typed,untyped]
      rw [closedInput_plain still,heard,begun,isObject,isText]
      simp [empty,filled,SameValue,reads.trailing]

def withType (kind : String) (entries : JsonObject) : JsonValue := .object (JsonObject.extend [("type",.string kind)] entries)

variable {entries : JsonObject} {kind : String}

theorem type_withType (kind : String) (untyped : entries.lookup "type" = none) :
    (withType kind entries).get "type" = some (.string kind) := by
  show JsonObject.get _ _ = _
  rw [JsonObject.get,JsonObject.lookup_extend entries untyped]
  rfl

theorem withType_ne (kind : String) {other : JsonObject} (untyped : entries.lookup "type" = none)
    (unlike : other.lookup "type" = none) : withType kind entries ≠ .object other := by
  intro same
  have := type_withType kind untyped
  rw [same,JsonValue.get,as_object,Option.bind_some,JsonObject.get,unlike] at this
  cases this

theorem programmatic_withType (kind : String) (untyped : entries.lookup "type" = none) :
    programmatic_tool_call (withType kind entries) = withType kind entries := by
  have typed : (JsonObject.extend [("type",.string kind)] entries).lookup "type" = some (.string kind) := type_withType kind untyped
  simp [programmatic_tool_call,withType,typed]

theorem programmatic_object (untyped : entries.lookup "type" = none) :
    programmatic_tool_call (.object entries) =
      if (entries.lookup "code").isSome then withType "programmatic-tool-call" entries else .object entries := by
  cases coded : (entries.lookup "code").isSome <;> simp [programmatic_tool_call,withType,untyped,coded]

/-- What is made of the input of a code execution: an empty object, or the members with the type added in front. -/
theorem closedInput_code (laws : ReadsEmpty config) (known : kind ∈ inputTypes) (fresh : block.input = "")
    (begins : block.first_delta = true) (typed : block.provider_tool_input_type = some kind)
    (code : block.provider_tool_name = some "code_execution")
    (streams : StreamsInput config input started (deltas.filterMap inputJson)) :
    ∃ entries, input.getD (.object []) = .object entries ∧ entries.lookup "type" = none ∧
      (emptyInput input = true ↔ entries = []) ∧ (entries ≠ [] → ∃ text, Reads config text entries) ∧
      closedInput config (calling m block deltas) = if entries = [] ∨ m.json_response_from_tool then "\x7b\x7d"
        else config.to_string (withType kind entries) := by
  have still : (calling m block deltas).provider_tool_name = some "code_execution" := by rw [calling_names]; exact code
  obtain ⟨entries,isObject,isUntyped,empty,cases⟩ := streams.cases m block
  have unheard : calling m block deltas = block → closedInput config (calling m block deltas) = "\x7b\x7d" := by
    intro same
    simp [closedInput,same,fresh,code,laws.read,programmatic_tool_call,laws.written]
  refine ⟨entries,isObject,isUntyped,empty,?_⟩
  obtain ⟨rfl,same⟩ | ⟨text,filled,reads,-,⟨json,same⟩ | ⟨json,heard⟩⟩ := cases
  · exact ⟨fun filled => absurd rfl filled,by simpa using unheard same⟩
  · exact ⟨fun _ => ⟨text,reads⟩,by simpa [json] using unheard same⟩
  · refine ⟨fun _ => ⟨text,reads⟩,?_⟩
    obtain ⟨rest,rfl,read⟩ := reads.begins
    have whole : (calling m block deltas).input = "\x7b\"type\": \"" ++ kind ++ "\"," ++ rest := by
      rw [heard,fresh,ToolCallBlock.typed,typed]
      simp [begins]
    have parsed : config.from_str (calling m block deltas).input = some (withType kind entries) := by
      rw [whole]
      exact read kind known
    have some_ : (calling m block deltas).input ≠ "" := by rw [whole]; simp
    simp [closedInput,some_,still,parsed,programmatic_withType kind isUntyped,filled,json]

theorem same_input_editor (laws : ReadsEmpty config) (known : kind ∈ inputTypes) (fresh : block.input = "")
    (begins : block.first_delta = true) (typed : block.provider_tool_input_type = some kind)
    (code : block.provider_tool_name = some "code_execution")
    (streams : StreamsInput config input started (deltas.filterMap inputJson)) :
    SameValue config (config.to_string (withType kind (object (input.getD (.object [])))))
        (closedInput config (calling m block deltas)) ↔
      ¬ emptyInput input ∧ ¬ m.json_response_from_tool := by
  obtain ⟨entries,isObject,untyped,empty,reads,closed⟩ := closedInput_code (m := m) laws known fresh begins typed code streams
  have written : config.from_str (config.to_string (withType kind entries)) = some (withType kind entries) := by
    by_cases none_ : entries = []
    · subst none_
      exact laws.typed kind known
    · obtain ⟨_,reads⟩ := reads none_
      exact reads.writtenTyped kind known
  rw [closed,isObject]
  simp only [object,as_object,getD_some]
  split
  · rename_i unheard
    rw [sameValue_iff written laws.read]
    have differs : withType kind entries ≠ .object [] := withType_ne kind untyped rfl
    simp only [differs,false_iff,empty]
    tauto
  · rename_i heard
    rw [sameValue_iff written written]
    simp only [empty]
    tauto

theorem same_input_code (laws : ReadsEmpty config) (fresh : block.input = "") (begins : block.first_delta = true)
    (typed : block.provider_tool_input_type = some "programmatic-tool-call")
    (code : block.provider_tool_name = some "code_execution")
    (streams : StreamsInput config input started (deltas.filterMap inputJson)) :
    SameValue config (config.to_string (programmatic_tool_call (input.getD (.object []))))
        (closedInput config (calling m block deltas)) ↔
      emptyInput input ∨ ((object (input.getD (.object []))).lookup "code").isSome ∧ ¬ m.json_response_from_tool := by
  have known : "programmatic-tool-call" ∈ inputTypes := by decide
  obtain ⟨entries,isObject,untyped,empty,reads,closed⟩ := closedInput_code (m := m) laws known fresh begins typed code streams
  rw [closed,isObject,programmatic_object untyped]
  simp only [object,as_object,getD_some,empty]
  by_cases none_ : entries = []
  · subst none_
    simp [laws.written,sameValue_iff laws.read laws.read]
  · obtain ⟨_,reads⟩ := reads none_
    have written : config.from_str (config.to_string (withType _ entries)) = some (withType _ entries) :=
      reads.writtenTyped _ known
    cases json : m.json_response_from_tool
    rotate_left
    · simp only [none_,or_true,if_true,not_true,and_false,or_false,iff_false]
      split
      · rw [sameValue_iff written laws.read]
        exact withType_ne _ untyped rfl
      · rw [sameValue_iff reads.written laws.read]
        simpa using none_
    · simp only [none_,or_self,Bool.false_eq_true,if_false,not_false_eq_true,and_true,false_or]
      split
      · rename_i coded
        rw [sameValue_iff written written]
        simp [coded]
      · rename_i uncoded
        rw [sameValue_iff reads.written written]
        simpa [uncoded] using (withType_ne _ untyped untyped).symm

end

/-! ### Blocks compared -/

section
variable {config : Config} {m n : OutputMapper} {b : BlockStream}

theorem same_of_bare {a b : Content} (isResult : isResult a = true) : Same config json a b ↔ bare a = bare b := by
  cases a with
  | ToolResult => cases b <;> rfl
  | Source => cases b <;> rfl
  | _ => cases isResult

theorem same_text {metadata : Option ProviderMetadata} : Same config false (.Text a metadata) (.Text a metadata) := by
  cases metadata <;> simp [Same]

theorem same_results {bs : List Content} (results : ∀ a ∈ as, isResult a = true) :
    List.Forall₂ (Same config json) as bs ↔ as.map bare = bs.map bare := by
  rw [← forall₂_eq_eq_eq,forall₂_map_left_iff,forall₂_map_right_iff]
  induction as generalizing bs with
  | nil => cases bs <;> simp
  | cons a _ ih =>
    cases bs with
    | nil => simp
    | cons =>
      simp only [forall₂_cons,same_of_bare (results a (by simp)),ih fun a mem => results a (by simp [mem])]

def Fits (config : Config) (m n : OutputMapper) (b : BlockStream) : Prop :=
  List.Forall₂ (Same config m.uses_json_response_tool) (m.map_block config b.block).2 (b.shown config n).2 ↔
    b.Agrees m.uses_json_response_tool m.position

theorem fits_text {citations : Option (List JsonValue)} (like : m.Like n) (isText : b.block = .Text text citations)
    (pieces : Pieces (b.deltas.filterMap Delta.text) text) (same : cited b.deltas = citations.getD []) : Fits config m n b := by
  obtain ⟨-,sources⟩ := cite_like config (citations.getD []) like
  have whole : joined Delta.text b.deltas = text := pieces.2
  have uses : n.uses_json_response_tool = m.uses_json_response_tool := by rw [like]
  cases json : m.uses_json_response_tool with
  | false =>
    have both : List.Forall₂ (Same config false) ((m.cite config (citations.getD [])).2.map .Source)
        ((n.cite config (citations.getD [])).2.map .Source) := by
      refine (same_results (by simp [isResult])).mpr ?_
      simpa [Function.comp_def,bare] using congrArg (List.map Content.Source) sources
    simpa [Fits,isText,map_block,shown,BlockStream.Agrees,uses,json,same,whole,same_text] using both
  | true =>
    have nothing : (n.cite config (citations.getD [])).2 = [] ↔ (m.cite config (citations.getD [])).2 = [] := by
      rw [← map_eq_nil_iff,← sources,map_eq_nil_iff]
    simpa [Fits,isText,map_block,shown,BlockStream.Agrees,uses,json,same,cite_nothing,
      position] using nothing

theorem plain_none : plain none = none := rfl

theorem plain_filled (key : String) (value : JsonValue) (rest : JsonObject) :
    plain (some (anthropic_metadata ((key,value) :: rest))) = some (anthropic_metadata ((key,value) :: rest)) := by
  simp [plain,anthropic_metadata]

theorem Pieces.nil (split : Pieces pieces "") : pieces = [] := by
  obtain ⟨all,empty⟩ := split
  cases pieces with
  | nil => rfl
  | cons first =>
    rw [String.join_cons] at empty
    exact absurd (String.append_eq_empty_iff.mp empty).1 (all first (by simp))

theorem last_piece (split : Pieces pieces text) (filled : text ≠ "") :
    pieces.getLast? = some text ↔ pieces.length ≤ 1 := by
  obtain ⟨all,rfl⟩ := split
  obtain rfl | ⟨before,last,rfl⟩ := pieces.eq_nil_or_concat'
  · exact absurd rfl filled
  · cases before with
    | nil => simp
    | cons first rest =>
      have longer : last ≠ String.join (first :: rest ++ [last]) := by
        intro same
        have lengths := congrArg String.length same
        have some_ : first.length ≠ 0 := mt String.length_eq_zero_iff.mp (all first (by simp))
        simp [String.length_append] at lengths
        omega
      rw [getLast?_concat,Option.some_inj]
      simpa using longer

theorem fits_thinking {thinking : String} {signature : Option String} (isThinking : b.block = .Thinking thinking signature)
    (pieces : Pieces (b.deltas.filterMap Delta.thinking) thinking)
    (signatures : Pieces (b.deltas.filterMap Delta.signature) (signature.getD "")) : Fits config m n b := by
  have whole : joined Delta.thinking b.deltas = thinking := pieces.2
  have agrees : plain (some (anthropic_metadata (given "signature" signature))) = plain (signed b.deltas) ↔
      signature ≠ some "" ∧ (b.deltas.filterMap Delta.signature).length ≤ 1 := by
    have nothing : signature.getD "" = "" → b.deltas.filterMap Delta.signature = [] := fun empty => by
      rw [empty] at signatures
      exact signatures.nil
    cases signature with
    | none => simp [signed,nothing rfl,plain,anthropic_metadata,given]
    | some text =>
      by_cases empty : text = ""
      · subst empty
        simp [signed,nothing rfl,given,plain_filled,plain_none]
      · have last := last_piece signatures empty
        have one : plain (some (anthropic_metadata (given "signature" (some text)))) = plain (signed b.deltas) ↔
            (b.deltas.filterMap Delta.signature).getLast? = some text := by
          unfold signed
          cases (b.deltas.filterMap Delta.signature).getLast? with
          | none => simp [given,plain_filled,plain_none]
          | some =>
            simp only [given,Option.map_some,Option.toList_some,plain_filled]
            simp [anthropic_metadata,eq_comm]
        rw [one]
        simpa [empty] using last
  simpa [Fits,isThinking,map_block,shown,BlockStream.Agrees,whole,Same,bare] using agrees

theorem same_called (config : Config) (json : Bool) (n : OutputMapper) (block : ToolCallBlock) (deltas : List Delta) (input : String) :
    List.Forall₂ (Same config json) [.ToolCall ⟨block.tool_call_id,block.tool_name,input,block.provider_executed,block.dynamic,
        block.caller⟩] [.ToolCall ((calling n block deltas).call config)] ↔
      SameValue config input (closedInput config (calling n block deltas)) := by
  have called : (calling n block deltas).call config = ⟨block.tool_call_id,block.tool_name,
      closedInput config (calling n block deltas),block.provider_executed,block.dynamic,block.caller⟩ := by
    rw [ToolCallBlock.call,calling_names]
  rw [called]
  simp [Same]

variable {input started : Option JsonValue} {id name : String} {caller : Option Caller}

theorem same_response (laws : ReadsEmpty config) {deltas : List Delta}
    (streams : StreamsInput config input started (deltas.filterMap inputJson)) :
    SameValue config (config.to_string (input.getD (.object []))) (joined inputJson deltas) ↔ ¬ emptyInput input := by
  obtain ⟨-,_,isObject,-,heard⟩ := streams
  simp only [emptyInput,isObject,object,as_object,getD_some,decide_eq_true_eq]
  split at heard
  · rename_i empty
    simp [joined,heard,SameValue,laws.nothing,empty]
  · rename_i filled
    obtain ⟨_,⟨-,split⟩,reads⟩ := heard
    rw [joined,split,sameValue_iff reads.written reads.read]
    simp [filled]

theorem fits_tool_use (laws : ReadsEmpty config) (like : m.Like n) (isUse : b.block = .ToolUse id name input caller)
    (streams : StreamsInput config input started (b.deltas.filterMap inputJson)) : Fits config m n b := by
  have uses : n.uses_json_response_tool = m.uses_json_response_tool := by rw [like]
  have flag : n.json_response_from_tool = m.json_response_from_tool := by rw [like]
  have named : n.custom_name name = m.custom_name name := by rw [like]; rfl
  cases json : m.uses_json_response_tool && name = "json"
  · have same := same_called config m.uses_json_response_tool n
      ⟨id,m.custom_name name,"",false,false,true,none,none,caller_metadata caller⟩ b.deltas
      (config.to_string (input.getD (.object [])))
    rw [same_input_plain laws streams rfl rfl (by simp),flag] at same
    simpa [Fits,isUse,map_block,shown,BlockStream.Agrees,call,callBlock,json,uses,named,
      position] using same
  · obtain ⟨used,isJson⟩ : m.uses_json_response_tool = true ∧ name = "json" := by simpa using json
    simpa [Fits,isUse,map_block,shown,BlockStream.Agrees,uses,used,isJson,Same] using
      same_response laws streams

theorem fits_server (n : OutputMapper)
    {provider_name initial : String} {input_type : Option String} {value : JsonValue} (like : m.Like n)
    (isUse : b.block = .ServerToolUse id name input caller)
    (complete : OutputMapper.providerTool name (input.getD (.object [])) = some (provider_name,value))
    (streamed : serverTool config name none = some (provider_name,input_type,initial))
    (same : SameValue config (config.to_string value) (closedInput config (calling n
      ⟨id,n.custom_name provider_name,initial,true,n.is_dynamic provider_name,initial = "" || provider_name = "advisor",
        some provider_name,input_type,caller_metadata caller⟩ b.deltas)) ↔ b.Agrees m.uses_json_response_tool m.position) :
    Fits config m n b := by
  have named : n.custom_name provider_name = m.custom_name provider_name := by rw [like]; rfl
  have dynamic : n.is_dynamic provider_name = m.is_dynamic provider_name := by rw [like]; rfl
  rw [Fits,← same,← same_called config m.uses_json_response_tool]
  simp [isUse,map_block,server_tool_use,complete,shown,call,callBlock,streamed,
    named,dynamic]

theorem fits_server_tool_use (laws : ReadsEmpty config)
    (like : m.Like n) (isUse : b.block = .ServerToolUse id name input caller)
    (streams : StreamsInput config input started (b.deltas.filterMap inputJson)) : Fits config m n b := by
  have flag : m.position.json = n.json_response_from_tool := by rw [like]; rfl
  have agrees := BlockStream.Agrees.eq_def m.uses_json_response_tool m.position b
  rw [isUse,flag] at agrees
  dsimp only at agrees
  split at agrees
  · refine fits_server n like isUse rfl rfl ?_
    rw [agrees]
    exact same_input_editor laws (by decide) rfl rfl rfl rfl streams
  · refine fits_server n like isUse rfl rfl ?_
    rw [agrees]
    exact same_input_editor laws (by decide) rfl rfl rfl rfl streams
  · refine fits_server n like isUse rfl rfl ?_
    rw [agrees]
    exact same_input_code laws rfl rfl rfl rfl streams
  · refine fits_server n like isUse rfl rfl ?_
    rw [agrees]
    exact same_input_plain laws streams rfl rfl (by simp)
  · refine fits_server n like isUse rfl rfl ?_
    rw [agrees]
    exact same_input_plain laws streams rfl rfl (by simp)
  · refine fits_server n like isUse rfl rfl ?_
    rw [agrees]
    exact same_input_plain laws streams rfl rfl (by simp)
  · refine fits_server n like isUse rfl rfl ?_
    rw [agrees]
    exact same_input_plain laws streams rfl rfl (by simp)
  · refine fits_server n like isUse rfl rfl ?_
    rw [agrees]
    exact same_input_advisor laws streams rfl rfl (by simp)
  · have complete : providerTool name (input.getD (.object [])) = none := by simp_all [providerTool]
    have streamed : serverTool config name none = none := by simp_all [serverTool]
    rw [Fits,agrees]
    simp [isUse,map_block,server_tool_use,complete,shown,call,callBlock,
      streamed]

theorem fits_mcp (laws : ReadsEmpty config) {server_name : String}
    (isUse : b.block = .McpToolUse id name input server_name)
    (streams : StreamsInput config input started (b.deltas.filterMap inputJson)) : Fits config m n b := by
  have same : SameValue config (config.to_string (input.getD (.object []))) (config.to_string (.object [])) ↔
      emptyInput input := by
    obtain ⟨-,_,isObject,-,heard⟩ := streams
    simp only [emptyInput,isObject,object,as_object,getD_some,decide_eq_true_eq,laws.written]
    split at heard
    · rename_i empty
      simp [empty,laws.written,sameValue_iff laws.read laws.read]
    · obtain ⟨_,-,reads⟩ := heard
      simp [sameValue_iff reads.written laws.read]
  simpa [Fits,isUse,map_block,mcp_tool_use,shown,BlockStream.Agrees,Same] using same

theorem fits_results (like : m.Like n)
    (complete : m.map_block config b.block = ((m.map_result_block config b.block).1,(m.map_result_block config b.block).2.getD []))
    (streamed : b.shown config n = ((n.map_result_block config b.block).1,(n.map_result_block config b.block).2.getD []))
    (agrees : b.Agrees m.uses_json_response_tool m.position) : Fits config m n b := by
  rw [Fits,complete,streamed,same_results (isResult_map_result_block config m b.block)]
  simp only [agrees,iff_true]
  exact (map_result_block_like config like b.block).2

theorem fits (laws : ReadsEmpty config) (like : m.Like n) (carries : b.Carries config) : Fits config m n b := by
  obtain ⟨_,_,start,deltas⟩ := b
  unfold BlockStream.Carries at carries
  dsimp only at carries
  split at carries
  · exact fits_text like rfl carries.2.2.1 carries.2.2.2
  · exact fits_thinking rfl carries.2.2.1 carries.2.2.2
  · have whole : joined Delta.compaction deltas = _ := carries.2.2
    simp [Fits,map_block,shown,BlockStream.Agrees,whole,Same]
  · obtain ⟨same,-,streams⟩ := carries
    obtain ⟨rfl,rfl,rfl⟩ := same
    exact fits_tool_use laws like rfl streams
  · obtain ⟨same,-,streams⟩ := carries
    obtain ⟨rfl,rfl,rfl⟩ := same
    exact fits_server_tool_use laws like rfl streams
  · obtain ⟨same,-,streams⟩ := carries
    obtain ⟨rfl,rfl,rfl⟩ := same
    exact fits_mcp laws rfl streams
  · rename_i noText noThinking noCompaction noToolUse noServerToolUse noMcpToolUse
    obtain ⟨rfl,rfl⟩ := carries
    cases start with
    | Text => exact (noText _ _ _ _ rfl rfl).elim
    | Thinking => exact (noThinking _ _ _ _ rfl rfl).elim
    | Compaction => exact (noCompaction _ _ rfl rfl).elim
    | ToolUse => exact (noToolUse _ _ _ _ _ _ _ _ rfl rfl).elim
    | ServerToolUse => exact (noServerToolUse _ _ _ _ _ _ _ _ rfl rfl).elim
    | McpToolUse => exact (noMcpToolUse _ _ _ _ _ _ _ _ rfl rfl).elim
    | RedactedThinking => simp [Fits,map_block,shown,BlockStream.Agrees,Same]
    | ContainerUpload => simp [Fits,map_block,shown,BlockStream.Agrees]
    | _ => exact fits_results like rfl rfl trivial

theorem providerTool_serverTool (config : Config) (name : String) (input : JsonValue) :
    (OutputMapper.providerTool name input).isSome = (serverTool config name none).isSome := by
  unfold providerTool
  split
  all_goals try rfl
  simp_all [serverTool]

theorem call_isSome (config : Config) (m n : OutputMapper) (id name : String) (input : Option JsonValue) (caller : Option Caller) (isUse : b.block = .ServerToolUse id name input caller) :
    (b.call config n).isSome = (m.server_tool_use config id name input caller).2.isSome := by
  have same := providerTool_serverTool config name (input.getD (.object []))
  unfold server_tool_use
  cases complete : providerTool name (input.getD (.object [])) with
  | none =>
    cases streamed : serverTool config name none with
    | none => simp [call,callBlock,isUse,streamed]
    | some => simp [complete,streamed] at same
  | some tool =>
    cases streamed : serverTool config name none with
    | none => simp [complete,streamed] at same
    | some => simp [call,callBlock,isUse,streamed]

theorem cite_length (config : Config) (like : m.Like n) (citations : List JsonValue) :
    (n.cite config citations).2.length = (m.cite config citations).2.length := by
  have sources := congrArg List.length (cite_like config citations like).2
  simpa using sources.symm

theorem BlockStream.Carries.citations {citations : Option (List JsonValue)} (carries : b.Carries config)
    (isText : b.block = .Text text citations) : cited b.deltas = citations.getD [] := by
  obtain ⟨_,_,start,_⟩ := b
  subst isText
  cases start with
  | Text => exact carries.2.2.2
  | _ => cases carries.1

theorem shorter_block (like : m.Like n) (carries : b.Carries config) (other : ∀ file_id, b.block ≠ .ContainerUpload file_id) :
    (m.map_block config b.block).2.length ≤ (b.shown config n).2.length := by
  have uses : n.uses_json_response_tool = m.uses_json_response_tool := by rw [like]
  have results := congrArg List.length (map_result_block_like config like b.block).2
  rw [length_map,length_map] at results
  cases isBlock : b.block with
  | Text _ citations =>
    have same := carries.citations isBlock
    cases json : m.uses_json_response_tool <;>
      simp [map_block,shown,isBlock,uses,json,same,cite_length config like]
  | ToolUse _ name =>
    cases json : m.uses_json_response_tool && name = "json" <;>
      simp [map_block,shown,isBlock,uses,json,call,callBlock]
  | ServerToolUse id name input caller =>
    have called := call_isSome config m n id name input caller isBlock
    cases complete : (m.server_tool_use config id name input caller).2 <;> cases streamed : b.call config n <;>
      simp_all [map_block,shown]
  | ContainerUpload file_id => exact absurd isBlock (other file_id)
  | Thinking | RedactedThinking | Compaction | McpToolUse => simp [map_block,shown,isBlock]
  | _ =>
    rw [isBlock] at results
    simp [map_block,shown,isBlock,results]

theorem OutputMapper.like_symm (like : m.Like n) : n.Like m := by
  rw [OutputMapper.Like,like]

theorem next_like (like : m.Like n) : (m.map_block config b.block).1.Like (b.shown config n).1 := by
  have uses : n.uses_json_response_tool = m.uses_json_response_tool := by rw [like]
  have results := (map_result_block_like config like b.block).1
  cases isBlock : b.block with
  | Text =>
    have streamed := like_trans like (cite_own config (cited b.deltas) n)
    cases json : m.uses_json_response_tool <;> simp [map_block,shown,isBlock,uses,json]
    · exact like_trans (like_symm (cite_own config _ m)) streamed
    · exact streamed
  | ToolUse _ name =>
    cases json : m.uses_json_response_tool && name = "json" <;>
      simp [map_block,shown,isBlock,uses,json]
    · exact like
    · rw [like]; rfl
  | ServerToolUse id name input caller =>
    have called := call_isSome config m n id name input caller isBlock
    have remembered : (m.remembering id name).Like (n.remembering id name) := by
      rw [like]
      unfold remembering remember_tool_search
      split <;> rfl
    cases complete : providerTool name (input.getD (.object [])) <;>
      simp_all [map_block,shown,server_tool_use]
  | McpToolUse =>
    simp only [map_block,shown,isBlock]
    rw [like]
    rfl
  | Thinking | RedactedThinking | Compaction | ContainerUpload => simpa [map_block,shown,isBlock] using like
  | _ =>
    rw [isBlock] at results
    simpa [map_block,shown,isBlock] using results

theorem remembering_same (m : OutputMapper) (id name : String) :
    (m.remembering id name).uses_json_response_tool = m.uses_json_response_tool ∧ (m.remembering id name).position = m.position := by
  unfold remembering
  split <;> exact ⟨rfl,rfl⟩

theorem server_tool_use_same (m : OutputMapper) (id name : String) (input : Option JsonValue) (caller : Option Caller) :
    (m.server_tool_use config id name input caller).1.uses_json_response_tool = m.uses_json_response_tool ∧
      (m.server_tool_use config id name input caller).1.position = m.position := by
  unfold server_tool_use
  split
  · exact ⟨rfl,rfl⟩
  · exact remembering_same m id name

theorem cite_same (m : OutputMapper) (citations : List JsonValue) :
    (m.cite config citations).1.uses_json_response_tool = m.uses_json_response_tool ∧
      (m.cite config citations).1.position = m.position := by
  rw [cite_own config citations m]
  exact ⟨rfl,rfl⟩

theorem next_uses (config : Config) (m : OutputMapper) (block : ContentBlock) :
    (m.map_block config block).1.uses_json_response_tool = m.uses_json_response_tool := by
  have results := (map_result_block_alike config m block).1
  cases block with
  | Text =>
    cases json : m.uses_json_response_tool <;> simp [map_block,json,cite_same]
  | ToolUse =>
    simp only [map_block]
    split <;> rfl
  | ServerToolUse id name input caller => exact (server_tool_use_same m id name input caller).1
  | Thinking | RedactedThinking | Compaction | ContainerUpload | McpToolUse => rfl
  | _ => exact results

theorem next_position (config : Config) (m : OutputMapper) (block : ContentBlock) :
    (m.map_block config block).1.position = m.position.next m.uses_json_response_tool block := by
  cases block with
  | Text =>
    cases json : m.uses_json_response_tool <;> simp [map_block,json,cite_same,Position.next]
  | ToolUse _ name =>
    cases json : m.uses_json_response_tool && name = "json" <;>
      simp [map_block,Position.next,json,position]
  | ServerToolUse id name input caller => exact (server_tool_use_same m id name input caller).2
  | WebFetchToolResult =>
    simp only [map_block,map_result_block,Position.next]
    split
    · simp_all [web_fetch_result,position]
    · simp_all
    · simp_all
  | WebSearchToolResult =>
    simp only [map_block,map_result_block,web_search,Position.next]
    split <;> rfl
  | _ => rfl

end

/-! ### Messages compared -/

section
variable {config : Config} {m n : OutputMapper} {bs : List BlockStream}

def NoUpload (bs : List BlockStream) : Prop := ∀ b ∈ bs, ∀ file_id, b.block ≠ .ContainerUpload file_id

theorem shorter_all (like : m.Like n) (carries : ∀ b ∈ bs, b.Carries config) (others : NoUpload bs) :
    (m.map_blocks config (bs.map BlockStream.block)).2.length ≤ (AnthropicStreamState.shownAll config n bs).2.length := by
  induction bs generalizing m n with
  | nil => simp [map_blocks,shownAll]
  | cons b _ ih =>
    have first := shorter_block like (carries b (by simp)) (others b (by simp))
    have next : (m.map_block config b.block).1.Like (b.shown config n).1 := next_like like
    have later := ih next (fun b mem => carries b (by simp [mem])) fun b mem => others b (by simp [mem])
    simp only [map_cons,map_blocks,shownAll,length_append]
    omega

theorem forall₂_append_of_shorter {α β : Type*} {R : α → β → Prop} {as as' : List α} {bs bs' : List β}
    (first : as.length ≤ bs.length) (later : as'.length ≤ bs'.length) :
    List.Forall₂ R (as ++ as') (bs ++ bs') ↔ List.Forall₂ R as bs ∧ List.Forall₂ R as' bs' := by
  constructor
  · intro all
    have lengths := all.length_eq
    rw [length_append,length_append] at lengths
    have same : as.length = bs.length := by omega
    refine ⟨?_,?_⟩
    · simpa [same] using forall₂_take as.length all
    · simpa [same] using forall₂_drop as.length all
  · exact fun both => rel_append both.1 both.2

def isCustom : Content → Bool
  | .Custom .. => true
  | _ => false

theorem isCustom_same {a b : Content} (same : Same config json a b) : isCustom a = isCustom b := by
  unfold Same at same
  split at same
  · rfl
  · rfl
  · cases a <;> cases b <;> first | rfl | cases same

theorem any_isCustom {bs : List Content} (same : List.Forall₂ (Same config json) as bs) :
    as.any isCustom = bs.any isCustom := by
  induction same with
  | nil => rfl
  | cons here _ ih => rw [any_cons,any_cons,isCustom_same here,ih]

theorem shown_isCustom (n : OutputMapper) (b : BlockStream) : (b.shown config n).2.any isCustom = false := by
  have results := isResult_map_result_block config n b.block
  have noResult : ∀ c, isResult c = true → isCustom c = false := fun c isResult => by
    cases c <;> first | rfl | cases isResult
  have noResults : ((n.map_result_block config b.block).2.getD []).any isCustom = false :=
    List.any_eq_false.mpr fun c member => by simp [noResult c (results c member)]
  cases isBlock : b.block with
  | Text => cases json : n.uses_json_response_tool <;> simp [shown,isBlock,json,isCustom]
  | ToolUse _ name =>
    cases json : n.uses_json_response_tool && name = "json" <;>
      simp [shown,isBlock,json,isCustom,call,callBlock]
  | ServerToolUse =>
    cases called : b.call config n <;> simp [shown,isBlock,called,isCustom]
  | Thinking | RedactedThinking | Compaction | McpToolUse | ContainerUpload => simp [shown,isBlock,isCustom]
  | _ =>
    rw [isBlock] at noResults
    simpa [shown,isBlock] using noResults

theorem shownAll_isCustom (n : OutputMapper) (bs : List BlockStream) :
    (AnthropicStreamState.shownAll config n bs).2.any isCustom = false := by
  induction bs generalizing n with
  | nil => rfl
  | cons _ _ ih => simp only [shownAll,any_append,shown_isCustom,ih,Bool.or_false]

theorem upload_missing (upload : ¬ NoUpload bs) :
    ¬ List.Forall₂ (Same config json) (m.map_blocks config (bs.map BlockStream.block)).2 (AnthropicStreamState.shownAll config n bs).2 := by
  intro same
  have customs := any_isCustom same
  rw [shownAll_isCustom] at customs
  refine upload fun b mem file_id isUpload => ?_
  clear same upload
  induction bs generalizing m with
  | nil => cases mem
  | cons _ _ ih =>
    simp only [map_cons,map_blocks,any_append,Bool.or_eq_false_iff] at customs
    obtain rfl | later := List.mem_cons.mp mem
    · simp [isUpload,map_block,isCustom] at customs
    · exact ih customs.2 later

theorem upload_disagrees {uses : Bool} {at_ : Position} (upload : ¬ NoUpload bs) : ¬ AllAgree uses at_ bs := by
  intro agree
  refine upload fun b mem file_id isUpload => ?_
  clear upload
  induction bs generalizing at_ with
  | nil => cases mem
  | cons _ _ ih =>
    obtain rfl | later := List.mem_cons.mp mem
    · have := agree.1
      rw [BlockStream.Agrees,isUpload] at this
      exact this
    · exact ih agree.2 later

theorem fit_all (laws : ReadsEmpty config) (like : m.Like n) (carries : ∀ b ∈ bs, b.Carries config) (others : NoUpload bs) :
    List.Forall₂ (Same config m.uses_json_response_tool) (m.map_blocks config (bs.map BlockStream.block)).2
        (AnthropicStreamState.shownAll config n bs).2 ↔ AllAgree m.uses_json_response_tool m.position bs := by
  induction bs generalizing m n with
  | nil => simp [map_blocks,shownAll,AllAgree]
  | cons b rest ih =>
    have carriesRest : ∀ b ∈ rest, b.Carries config := fun b mem => carries b (by simp [mem])
    have othersRest : NoUpload rest := fun b mem => others b (by simp [mem])
    have next : (m.map_block config b.block).1.Like (b.shown config n).1 := next_like like
    have later := ih next carriesRest othersRest
    rw [next_uses,next_position] at later
    have here : Fits config m n b := fits laws like (carries b (by simp))
    simp only [map_cons,map_blocks,shownAll,AllAgree]
    rw [forall₂_append_of_shorter (shorter_block like (carries b (by simp)) (others b (by simp)))
      (shorter_all next carriesRest othersRest)]
    exact and_congr here later

end

def oslo : JsonObject := [("city",.string "Oslo")]

def osloTexts : List (String × JsonValue) :=
  [("\x7b\x7d",.object []),("\x7b\"city\":\"Oslo\"\x7d",.object oslo)] ++ inputTypes.flatMap fun kind =>
    [("\x7b\"type\":\"" ++ kind ++ "\"\x7d",.object [("type",.string kind)]),
      ("\x7b\"type\":\"" ++ kind ++ "\",\"city\":\"Oslo\"\x7d",withType kind oslo),
      ("\x7b\"type\": \"" ++ kind ++ "\",\"city\":\"Oslo\"\x7d",withType kind oslo)]

def osloConfig : Config where
  to_string value := ((osloTexts.find? (·.2 = value)).map (·.1)).getD ""
  from_str text := osloTexts.lookup text
  generate_id n := "id-" ++ toString n

def freshMapper : OutputMapper := ⟨[],false,false,[],false,[],[],0⟩

def startMessage : MessageStart := ⟨none,none,.default,none,none,none,none⟩

def osloEvents (bs : List BlockStream) : AnthropicStreamState.Events :=
  (messageEvents startMessage bs ⟨some "tool_use",none,none,none⟩ .default none none).map fun chunk => (chunk,.null)

def osloBlocks : List BlockStream :=
  [⟨0,.Text "Oslo it is." none,.Text "" none,[.Text "Oslo ",.Text "it is."]⟩,
    ⟨1,.ToolUse "call-1" "weather" (some (.object oslo)) none,.ToolUse "call-1" "weather" (some (.object [])) none,
      [.InputJson "\x7b\"city\"",.InputJson ":\"Oslo\"\x7d"]⟩]

theorem osloConfig_reads_empty : ReadsEmpty osloConfig :=
  ⟨by decide,by decide,by decide,by decide⟩

theorem osloConfig_reads : Reads osloConfig "\x7b\"city\":\"Oslo\"\x7d" oslo :=
  ⟨⟨"\"city\":\"Oslo\"\x7d",by decide,by decide⟩,by decide,by decide,by decide,by decide⟩

end Ferrin.Anthropic
