import Ferrin.Anthropic.MessageAgreement
import Ferrin.Json.Reading

/-!
The input that a stream assembles for a server tool whose input has a type: the
type is put in front of the first fragment.
-/
namespace Ferrin.Anthropic
open List JsonText Option ToolCallBlock AnthropicStreamState
open JsonText (Text Compact Chars Members Spaces Blank Value)

namespace AnthropicStreamState

/-- The parts at the end of a tool call whose block starts with an input and gets fragments of it. Slices may panic. -/
def assembled (config : Config) (s : AnthropicStreamState) (index : Nat) (start : ContentBlock) (fragments : List String) :
    Option (List StreamPart) := do
  let s ← fragments.foldlM (fun s fragment => Prod.fst <$> s.block_delta config index (.InputJson fragment))
    (s.block_start config index start).1
  return (s.block_stop config index).2

end AnthropicStreamState

/-! ### Texts -/

def isPlain (text : List Char) : Bool := text.all fun c => c ≠ '"' ∧ c ≠ '\\' ∧ 32 ≤ c.toNat

theorem chars_plain {text : List Char} (plain : isPlain text = true) : Chars text text := by
  induction text with
  | nil => exact .nil
  | cons c rest ih =>
    rw [isPlain,all_cons,Bool.and_eq_true] at plain
    exact .plain (show c ≠ '"' ∧ c ≠ '\\' ∧ 32 ≤ c.toNat from of_decide_eq_true plain.1) (ih plain.2)

/-- The type with what comes behind the brace of an object. -/
def typedText (kind : String) (rest : List Char) : List Char :=
  '\x7b' :: '"' :: ("type".toList ++ '"' :: ':' :: ' ' :: '"' :: (kind.toList ++ '"' :: ',' :: rest))

variable {c : Char} {tail : List Char}

section
variable {kind : String} {text rest : List Char} {members : List (List Char × Value)}

theorem chars_type : Chars "type".toList "type".toList := chars_plain (by decide)

theorem compact_kind (known : kind ∈ inputTypes) : Compact ('"' :: (kind.toList ++ ['"'])) (.string kind.toList) := by
  have plain : ∀ kind ∈ inputTypes, isPlain kind.toList = true := by decide
  exact .string (chars_plain (plain kind known))

theorem spaces_one : Spaces [' '] := fun _ mem => .inl (List.mem_singleton.mp mem)

variable {listed after : List Char}

theorem typedText_object (known : kind ∈ inputTypes) (objects : Members listed members)
    (tail : Spaces after) : Text (typedText kind (listed ++ '\x7d' :: after)) (.object (("type".toList,.string kind.toList) :: members)) := by
  have inner := Members.more spaces_nil chars_type spaces_nil spaces_one (compact_kind known)
    spaces_nil objects
  refine ⟨[],_,after,?_,spaces_nil,.object inner,tail⟩
  simp [typedText]

theorem members_quote (objects : Members listed members) : ∃ before more, listed = before ++ '"' :: more ∧
    Spaces before := by
  cases objects with
  | last lead => exact ⟨_,_,rfl,lead⟩
  | more lead => exact ⟨_,_,rfl,lead⟩

theorem members_follow (known : kind ∈ inputTypes) (objects : Members listed members)
    (same : '"' :: ("type".toList ++ '"' :: ':' :: ' ' :: '"' :: (kind.toList ++ '"' :: ',' :: rest)) = listed ++ '\x7d' :: after) :
    ∃ before more, rest = before ++ '"' :: more ∧ Spaces before := by
  have blank := spaces_nil
  have value' := compact_kind known
  cases objects with
  | @last _ _ _ _ space text tail' _ lead chars gapped spaced value tail =>
    simp only [append_assoc,cons_append] at same
    obtain ⟨_,_,_,_,later⟩ := key_unique blank chars_type blank lead chars gapped same
    have slot : [' '] ++ (('"' :: (kind.toList ++ ['"'])) ++ ([] ++ ',' :: rest)) = space ++ (text ++ (tail' ++ '\x7d' :: after)) := by
      simpa using later
    obtain ⟨_,_,_,_,ends,_⟩ := slot_unique value' value'.unique spaces_one blank (.inl rfl) spaced value tail
      (.inr (.inr rfl)) slot
    cases ends
  | @more _ _ _ _ space text tail' _ rest' _ lead chars gapped spaced value tail others =>
    simp only [append_assoc,cons_append] at same
    obtain ⟨_,_,_,_,later⟩ := key_unique blank chars_type blank lead chars gapped same
    have slot : [' '] ++ (('"' :: (kind.toList ++ ['"'])) ++ ([] ++ ',' :: rest)) =
        space ++ (text ++ (tail' ++ ',' :: (rest' ++ '\x7d' :: after))) := by
      simpa using later
    obtain ⟨_,_,_,_,_,rfl⟩ := slot_unique value' value'.unique spaces_one blank (.inl rfl) spaced value tail
      (.inl rfl) slot
    obtain ⟨before,more,rfl,lead⟩ := members_quote others
    exact ⟨before,more ++ '\x7d' :: after,by simp,lead⟩

theorem typedText_broken (known : kind ∈ inputTypes) {space : List Char} (blank : Spaces space) (solid : ¬ Blank c)
    (other : c ≠ '"') (v : Value) : ¬ Text (typedText kind (space ++ c :: rest)) v := by
  rintro ⟨before,inner,after,same,lead,compact,tail⟩
  obtain ⟨d,others,rfl,leads⟩ := compact.leads
  obtain ⟨rfl,rfl,later⟩ := spaces_unique spaces_nil lead (by rintro (h | h | h | h) <;> cases h)
    (fun blank => solid_of_leads leads (.inl blank)) (show [] ++ typedText kind (space ++ c :: rest) = _ from same)
  cases compact with
  | emptyObject blank =>
    simp only [append_eq,append_assoc,cons_append,nil_append] at later
    obtain ⟨_,quote,_⟩ := spaces_unique spaces_nil blank solid_quote
      (solid_end (.inr (.inr rfl))) later
    cases quote
  | object listed =>
    simp only [append_eq,append_assoc,cons_append,nil_append] at later
    obtain ⟨before,more,follows,lead⟩ := members_follow known listed later
    obtain ⟨_,quote,_⟩ := spaces_unique blank lead solid solid_quote follows
    exact other quote
  | _ => cases leads

end

section
variable {config : Config} {s : AnthropicStreamState} {index : Nat} {id name kind provider text : String} {input : Option JsonValue}
  {caller : Option Caller} {block : ToolCallBlock} {fragments : List String}

namespace AnthropicStreamState

theorem typed_tool (typed : serverTool config name input = some (provider,some kind,"")) :
    provider = "code_execution" ∧ kind ∈ inputTypes ∧ name ∉ ["tool_search_tool_regex","tool_search_tool_bm25"] := by
  unfold serverTool at typed
  split at typed <;> simp only [Option.some.injEq,Prod.mk.injEq,reduceCtorEq,false_and,and_false] at typed
  all_goals
    obtain ⟨rfl,rfl,_⟩ := typed
    exact ⟨rfl,by decide,by decide⟩

theorem open_open (s : AnthropicStreamState) (index : Nat) (first second : Block) :
    (s.open_block index first).open_block index second = s.open_block index second := by
  simp [open_block,Assoc.put,Assoc.remove]

theorem block_start_typed (s : AnthropicStreamState) (index : Nat) (id : String) (caller : Option Caller)
    (typed : serverTool config name input = some (provider,some kind,"")) :
    ∃ block : ToolCallBlock, (s.block_start config index (.ServerToolUse id name input caller)).1 =
      s.open_block index (.ToolCall block) ∧ block.tool_call_id = id ∧ block.input = "" ∧ block.first_delta = true ∧
      block.provider_tool_name = some "code_execution" ∧ block.provider_tool_input_type = some kind := by
  obtain ⟨rfl,_,other⟩ := typed_tool typed
  simp only [mem_cons,not_mem_nil,or_false,not_or] at other
  refine ⟨⟨id,s.mapper.custom_name "code_execution","",true,s.mapper.is_dynamic "code_execution",true,some "code_execution",
    some kind,caller_metadata caller⟩,?_,rfl,rfl,rfl,rfl,rfl⟩
  simp [block_start,typed,other]

theorem sliceOne_head {first : String} (spelled : first.toList = c :: tail) (one : c.utf8Size = 1) :
    sliceOne first = some (String.ofList tail) := by
  rw [sliceOne,spelled]
  exact if_pos one

def hearing (s : AnthropicStreamState) (index : Nat) (block : ToolCallBlock) (fragments : List String) : AnthropicStreamState :=
  s.open_block index (.ToolCall (if s.mapper.json_response_from_tool then block else block.heard fragments))

theorem block_delta_hearing {earlier : List String} {fragment : String} (filled : fragment ≠ "")
    (slices : earlier = [] → ∃ rest, sliceOne fragment = some rest) :
    Prod.fst <$> (s.hearing index block earlier).block_delta config index (.InputJson fragment) =
      some (s.hearing index block (earlier ++ [fragment])) := by
  have found (b : Block) : (s.open_block index b).blocks.lookup index = some b := by simp [open_block,Assoc.lookup_put]
  have kept (b : Block) : (s.open_block index b).mapper = s.mapper := rfl
  unfold hearing
  cases json : s.mapper.json_response_from_tool with
  | true => simp [block_delta,filled,found,kept,json]
  | false =>
    simp only [Bool.false_eq_true,if_false,block_delta,filled,found,kept,json]
    rw [heard_snoc]
    cases earlier with
    | cons first others => simp [input_json,heard,open_open]
    | nil =>
      obtain ⟨rest,sliced⟩ := slices rfl
      have tail : String.ofList fragment.toList.tail = rest := by
        cases spelled : fragment.toList with
        | nil => simp [sliceOne,spelled] at sliced
        | cons c tail =>
          rw [sliceOne,spelled] at sliced
          dsimp only at sliced
          split_ifs at sliced
          exact some.inj sliced
      cases begins : block.first_delta <;> cases typed : block.provider_tool_input_type <;>
        simp [input_json,heard,ToolCallBlock.typed,begins,typed,sliced,tail,open_open]

theorem foldlM_hearing (filled : ∀ fragment ∈ fragments, fragment ≠ "")
    (slices : ∀ first ∈ fragments.head?, ∃ rest, sliceOne first = some rest) :
    fragments.foldlM (fun s fragment => Prod.fst <$> s.block_delta config index (.InputJson fragment))
      (s.hearing index block []) = some (s.hearing index block fragments) := by
  have from_ : ∀ later earlier, fragments = earlier ++ later →
      later.foldlM (fun s fragment => Prod.fst <$> s.block_delta config index (.InputJson fragment))
        (s.hearing index block earlier) = some (s.hearing index block fragments) := by
    intro later
    induction later with
    | nil =>
      rintro earlier rfl
      rw [append_nil]
      rfl
    | cons fragment rest ih =>
      intro earlier split
      have step : Prod.fst <$> (s.hearing index block earlier).block_delta config index (.InputJson fragment) =
          some (s.hearing index block (earlier ++ [fragment])) := by
        refine block_delta_hearing (filled fragment (by simp [split])) fun start => slices fragment ?_
        subst start
        rw [split]
        rfl
      rw [foldlM_cons,step]
      exact ih (earlier ++ [fragment]) (by rw [split,append_assoc]; rfl)
  exact from_ fragments [] rfl

theorem assembled_typed (s : AnthropicStreamState) (index : Nat) (id : String) (caller : Option Caller)
    (typed : serverTool config name input = some (provider,some kind,""))
    (filled : ∀ fragment ∈ fragments, fragment ≠ "") (slices : ∀ first ∈ fragments.head?, ∃ rest, sliceOne first = some rest) :
    ∃ (block : ToolCallBlock) (call : ToolCall), block.input = "" ∧ block.first_delta = true ∧
      block.provider_tool_name = some "code_execution" ∧ block.provider_tool_input_type = some kind ∧
      assembled config s index (.ServerToolUse id name input caller) fragments = some [.ToolInputEnd id none,.ToolCall call] ∧
      call.input = closedInput config (if s.mapper.json_response_from_tool then block else block.heard fragments) := by
  obtain ⟨block,opened,rfl,fresh,begins,code,kinds⟩ := block_start_typed s index id caller typed
  have start : s.open_block index (.ToolCall block) = s.hearing index block [] := by
    unfold hearing
    split_ifs <;> rfl
  have found (b : Block) : (s.open_block index b).blocks.lookup index = some b := by simp [open_block,Assoc.lookup_put]
  refine ⟨block,⟨block.tool_call_id,block.tool_name,
    closedInput config (if s.mapper.json_response_from_tool then block else block.heard fragments),block.provider_executed,
    block.dynamic,block.caller⟩,fresh,begins,code,kinds,?_,rfl⟩
  rw [assembled,opened,start,foldlM_hearing filled slices]
  simp only [Option.bind_eq_bind,Option.bind_some,Option.pure_def,Option.some.injEq]
  unfold hearing block_stop
  rw [found]
  cases s.mapper.json_response_from_tool with
  | true => rfl
  | false => cases fragments <;> rfl

end AnthropicStreamState

end

section
variable {config : Config} {block : ToolCallBlock} {fragments : List String} {text kind : String} {members : List (List Char × Value)}
  {p : Primitives} {number : List Char → Option JsonNumber} {limit : Nat}

open AnthropicStreamState

def Typed (p : Primitives) (number : List Char → Option JsonNumber) (limit : Nat) (kind : String)
    (members : List (List Char × Value)) (v : Value) : Prop :=
  v = .object (("type".toList,.string kind.toList) :: members) ∨
    ∃ entries, held number limit (.object members) = some (.object entries) ∧
      v = denoted p (.object (("type",.string kind) :: entries))

theorem not_typed_empty : ¬ Typed p number limit kind members (.object []) := by
  rintro (same | ⟨entries,_,same⟩)
  · cases same
  · simp [denoted,denoted_entries] at same

theorem object_text {text : List Char} (object : Text text (.object members)) : ∃ c tail, text = c :: tail ∧ c.utf8Size = 1 ∧
    (c = '\x7b' ∨ Blank c) := by
  obtain ⟨before,inner,after,rfl,lead,compact,_⟩ := object
  cases before with
  | cons c rest =>
    have blank := lead c mem_cons_self
    exact ⟨c,_,rfl,by rcases blank with rfl | rfl | rfl | rfl <;> rfl,.inr blank⟩
  | nil => cases compact <;> exact ⟨_,_,rfl,rfl,.inl rfl⟩

theorem typed_object (known : kind ∈ inputTypes) (object : Text ('\x7b' :: tail) (.object members))
    (filled : members ≠ []) : Text (typedText kind tail) (.object (("type".toList,.string kind.toList) :: members)) := by
  obtain ⟨before,inner,after,same,lead,compact,last⟩ := object
  cases before with
  | cons c rest =>
    obtain ⟨rfl,_⟩ := List.cons_eq_cons.mp same
    rcases lead _ mem_cons_self with h | h | h | h <;> cases h
  | nil =>
    cases compact with
    | emptyObject => exact absurd rfl filled
    | object listed =>
      obtain ⟨_,rfl⟩ := List.cons_eq_cons.mp same
      simpa using typedText_object known listed last

theorem typed_broken (known : kind ∈ inputTypes) (object : Text (c :: tail) (.object members))
    (wrong : members = [] ∨ c ≠ '\x7b') (v : Value) : ¬ Text (typedText kind tail) v := by
  obtain ⟨before,inner,after,same,lead,compact,last⟩ := object
  have solid : ¬ Blank '\x7b' ∧ ¬ Blank '\x7d' := by constructor <;> rintro (h | h | h | h) <;> cases h
  cases before with
  | cons d rest =>
    have blank : Spaces rest := fun e mem => lead e (mem_cons_of_mem d mem)
    obtain ⟨_,rfl⟩ := List.cons_eq_cons.mp same
    cases compact <;> exact typedText_broken known blank solid.1 (by decide) v
  | nil =>
    cases compact with
    | emptyObject blank =>
      obtain ⟨_,rfl⟩ := List.cons_eq_cons.mp same
      simpa using typedText_broken known blank solid.2 (by decide) v
    | object listed =>
      obtain ⟨rfl,_⟩ := List.cons_eq_cons.mp same
      rcases wrong with rfl | other
      · cases listed
      · exact absurd rfl other

theorem heard_typed (fresh : block.input = "") (begins : block.first_delta = true)
    (typed : block.provider_tool_input_type = some kind) (split : Pieces fragments text) (filled : text ≠ "") :
    (block.heard fragments).input.toList = typedText kind text.toList.tail := by
  rw [heard_input block split filled,fresh,ToolCallBlock.typed,typed]
  simp [begins,typedText]

theorem heard_code (code : block.provider_tool_name = some "code_execution") :
    (block.heard fragments).provider_tool_name = some "code_execution" := by
  cases fragments <;> exact code

theorem text_empty : Text ['\x7b','\x7d'] (.object []) := (Compact.emptyObject JsonText.spaces_nil).text

/-- The input of a code execution: what was read of it is written anew, and a text that is not read stays. -/
theorem closed_code (code : block.provider_tool_name = some "code_execution") (filled : block.input ≠ "") :
    closedInput config block =
      (config.from_str block.input).elim block.input fun parsed => config.to_string (programmatic_tool_call parsed) := by
  simp only [closedInput,code,filled,if_true,if_false]
  cases config.from_str block.input <;> rfl

section
variable (serde : SerdeJson config.from_str config.to_string p number limit)
include serde

theorem closed_empty
    (code : block.provider_tool_name = some "code_execution") (fresh : block.input = "") :
    closedInput config block = "\x7b\x7d" := by
  simp only [closedInput,code,fresh,if_true]
  cases found : config.from_str "\x7b\x7d" with
  | none => rfl
  | some v =>
    obtain ⟨w,spelled,same⟩ := (serde.reads _ _).mp found
    obtain rfl := spelled.unique text_empty
    have empty : v = .object [] := by
      cases limit with
      | zero => cases same
      | succ n => exact (some.inj same).symm
    rw [empty]
    exact serde.writes _

theorem closed_whole (known : kind ∈ inputTypes)
    (code : block.provider_tool_name = some "code_execution")
    (spelled : block.input.toList = typedText kind tail) (object : Text ('\x7b' :: tail) (.object members)) (filled : members ≠ [])
    (untyped : ∀ m ∈ members, m.1 ≠ "type".toList) :
    ∃ v, Text (closedInput config block).toList v ∧ Typed p number limit kind members v := by
  have whole := typed_object known object filled
  have some_ : block.input ≠ "" := by
    intro empty
    rw [empty] at spelled
    cases spelled
  rw [closed_code code some_]
  cases found : config.from_str block.input with
  | none =>
    rw [← spelled] at whole
    exact ⟨_,whole,.inl rfl⟩
  | some v =>
    obtain ⟨w,spelled',same⟩ := (serde.reads _ _).mp found
    rw [spelled] at spelled'
    obtain rfl := spelled'.unique whole
    have finite := held_finite serde.numbers limit _ same
    obtain ⟨entries,others,rfl⟩ := (held_front untyped limit v).mp same
    rw [String.ofList_toList,String.ofList_toList] at finite ⊢
    have stays : programmatic_tool_call (.object (("type",.string kind) :: entries)) = .object (("type",.string kind) :: entries) := by
      simp [programmatic_tool_call]
    have written := (compact_denoted serde.floats _ finite).text
    refine ⟨_,?_,.inr ⟨entries,others,rfl⟩⟩
    rw [elim_some,stays,serde.writes,String.toList_ofList]
    exact written

theorem closed_broken (known : kind ∈ inputTypes)
    (code : block.provider_tool_name = some "code_execution")
    (spelled : block.input.toList = typedText kind tail) (object : Text (c :: tail) (.object members))
    (wrong : members = [] ∨ c ≠ '\x7b') :
    closedInput config block = block.input ∧ ∀ v, ¬ Text block.input.toList v := by
  have broken := typed_broken known object wrong
  have some_ : block.input ≠ "" := by
    intro empty
    rw [empty] at spelled
    cases spelled
  have unread : config.from_str block.input = none := by
    rw [eq_none_iff_forall_ne_some]
    intro parsed found
    obtain ⟨w,spelled',_⟩ := (serde.reads _ _).mp found
    exact broken w (spelled ▸ spelled')
  rw [closed_code code some_,unread,spelled]
  exact ⟨rfl,broken⟩

end

/-- A typed tool that gets the text of an object in fragments is always called, and its input is the object with the
type unless the text begins with a space, the object is empty or an answer in JSON is on its way. -/
theorem server_tool_input_iff (serde : SerdeJson config.from_str config.to_string p number limit) (s : AnthropicStreamState)
    (index : Nat) (id : String) (caller : Option Caller) {name provider : String} {input : Option JsonValue}
    (typed : serverTool config name input = some (provider,some kind,"")) (object : Text text.toList (.object members))
    (untyped : ∀ m ∈ members, m.1 ≠ "type".toList) (split : Pieces fragments text) :
    ∃ call : ToolCall, s.assembled config index (.ServerToolUse id name input caller) fragments =
        some [.ToolInputEnd id none,.ToolCall call] ∧
      ((∃ v, Text call.input.toList v ∧ Typed p number limit kind members v) ↔
        s.mapper.json_response_from_tool = false ∧ members ≠ [] ∧ text.toList.head? = some '\x7b') := by
  obtain ⟨c,tail,spelled,one,_⟩ := object_text object
  have filled : text ≠ "" := by
    rintro rfl
    cases spelled
  have slices : ∀ first ∈ fragments.head?, ∃ rest, sliceOne first = some rest := by
    intro first member
    cases fragments with
    | nil => cases member
    | cons first' rest =>
      obtain rfl := some.inj member
      have whole : first'.toList ++ (String.join rest).toList = c :: tail := by
        rw [← String.toList_append,← String.join_cons,split.2,spelled]
      cases begins : first'.toList with
      | nil => exact absurd (String.toList_eq_nil_iff.mp begins) (split.1 first' mem_cons_self)
      | cons d others =>
        rw [begins] at whole
        obtain ⟨rfl,_⟩ := List.cons_eq_cons.mp whole
        exact ⟨_,sliceOne_head begins one⟩
  obtain ⟨_,known,_⟩ := typed_tool typed
  obtain ⟨block,call,fresh,begins,code,kinds,assembled,closed⟩ :=
    assembled_typed s index id caller typed split.1 slices
  have heard := heard_typed fresh begins kinds split filled
  rw [spelled] at heard object ⊢
  refine ⟨call,assembled,?_⟩
  rw [closed]
  cases json : s.mapper.json_response_from_tool with
  | true =>
    rw [if_pos rfl,closed_empty serde code fresh]
    refine iff_of_false ?_ (by simp)
    rintro ⟨v,only,added⟩
    obtain rfl := only.unique text_empty
    exact not_typed_empty added
  | false =>
    rw [if_neg Bool.false_ne_true]
    by_cases right : members ≠ [] ∧ c = '\x7b'
    · obtain ⟨some_,rfl⟩ := right
      exact iff_of_true (closed_whole serde known (heard_code code) heard object some_ untyped) ⟨rfl,some_,rfl⟩
    · have wrong : members = [] ∨ c ≠ '\x7b' := by
        rw [ne_eq,not_and_or,not_not] at right
        exact right
      obtain ⟨stays,broken⟩ := closed_broken serde known (heard_code code) heard object wrong
      rw [stays]
      exact iff_of_false (fun ⟨v,spelled',_⟩ => broken v spelled') fun ⟨_,some_,head⟩ => right ⟨some_,some.inj head⟩

end

/-! ### A call that lists files -/

def noFloats : Primitives := ⟨fun _ => ['0'],id,fun _ data => data,fun _ => "",fun _ => none⟩

/-- Texts without numbers are read. -/
noncomputable def serdeConfig : Config :=
  ⟨fun v => String.ofList (write_compact noFloats v),read (fun _ => none) 128,fun n => "id-" ++ toString n⟩

theorem serdeConfig_serde : SerdeJson serdeConfig.from_str serdeConfig.to_string noFloats (fun _ => none) 128 :=
  serdeJson_read 128 (fun _ _ known => by cases known) fun _ _ => number_toDigits 0

/-- The first fragment is the brace. -/
theorem server_tool_input_iff_list : ∃ call : ToolCall,
    (AnthropicStreamState.new freshMapper none).assembled serdeConfig 0 (.ServerToolUse "call-1" "bash_code_execution" none none)
        ["\x7b","\"command\":\"ls\"\x7d"] = some [.ToolInputEnd "call-1" none,.ToolCall call] ∧
      ∃ v, Text call.input.toList v ∧
        Typed noFloats (fun _ => none) 128 "bash_code_execution" [("command".toList,.string "ls".toList)] v := by
  have blank := spaces_nil
  have command : Chars "command".toList "command".toList := chars_plain (by decide)
  have listing : Chars "ls".toList "ls".toList := chars_plain (by decide)
  have object : Text "\x7b\"command\":\"ls\"\x7d".toList (.object [("command".toList,.string "ls".toList)]) :=
    (Compact.object (Members.last blank command blank blank (.string listing) blank)).text
  have split : Pieces ["\x7b","\"command\":\"ls\"\x7d"] "\x7b\"command\":\"ls\"\x7d" := ⟨by decide,by decide⟩
  have typed : serverTool serdeConfig "bash_code_execution" none = some ("code_execution",some "bash_code_execution","") := rfl
  obtain ⟨call,assembled,whole⟩ := server_tool_input_iff serdeConfig_serde (.new freshMapper none) 0 "call-1" none typed object
    (by decide) split
  exact ⟨call,assembled,whole.mpr ⟨rfl,by simp,by decide⟩⟩

/-- An empty object gets a comma with nothing behind it. -/
theorem empty_object_broken : Text "\x7b\x7d".toList (.object []) ∧ Pieces ["\x7b\x7d"] "\x7b\x7d" ∧ ∃ call : ToolCall,
    (AnthropicStreamState.new freshMapper none).assembled serdeConfig 0 (.ServerToolUse "call-1" "bash_code_execution" none none)
        ["\x7b\x7d"] = some [.ToolInputEnd "call-1" none,.ToolCall call] ∧
      call.input = "\x7b\"type\": \"bash_code_execution\",\x7d" ∧ ∀ v, ¬ Text call.input.toList v := by
  have split : Pieces ["\x7b\x7d"] "\x7b\x7d" := ⟨by decide,by decide⟩
  have sliced : ∀ first ∈ ["\x7b\x7d"].head?, ∃ rest, sliceOne first = some rest := by
    rintro first ⟨⟩
    exact ⟨"\x7d",by decide⟩
  refine ⟨text_empty,split,?_⟩
  have typed : serverTool serdeConfig "bash_code_execution" none = some ("code_execution",some "bash_code_execution","") := rfl
  obtain ⟨block,call,fresh,begins,code,kinds,assembled,closed⟩ :=
    assembled_typed (.new freshMapper none) 0 "call-1" none typed split.1 sliced
  have heard : (block.heard ["\x7b\x7d"]).input.toList = typedText "bash_code_execution" ['\x7d'] :=
    heard_typed fresh begins kinds split (by decide)
  obtain ⟨stays,broken⟩ := closed_broken serdeConfig_serde (by decide) (heard_code code) heard text_empty (.inl rfl)
  have input : call.input = (block.heard ["\x7b\x7d"]).input := closed.trans stays
  rw [← input] at heard broken
  exact ⟨call,assembled,String.toList_injective (heard.trans (by decide)),broken⟩

end Ferrin.Anthropic
