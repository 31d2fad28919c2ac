import Ferrin.Json.Canonical
import Ferrin.OpenAi.Responses.Watch

/-!
The streamed inputs of code interpreter calls and of patches. They are glued from
escaped fragments, and read as the input that the call carries on its own
(`tool_input_agrees`), unless the code of a call came in no delta.
-/
namespace Ferrin.OpenAi.Responses
open Ferrin.Stream ResponsesStreamState List OutputMapper OngoingToolCall
open Canonical (Same)
open String (join join_cons ofList toList_ofList)
open JsonValue (as_str)
open Inputs (append of)

/-! ### Gluing JSON -/

section
variable {env : Environment} {p : Primitives} {number : List Char → Option JsonNumber} {limit : Nat}

def escaped (text : String) : List Char := text.toList.flatMap escape_char

theorem toList_escape_json_delta (writes : ∀ v, env.json_text v = ofList (write_compact p v)) (delta : String) :
    (escape_json_delta env delta).toList = escaped delta := by
  rw [escape_json_delta,writes,toList_ofList,toList_ofList,write_compact,quoted,drop_succ_cons,
    drop_zero,dropLast_concat]
  rfl

theorem toList_escaped_join (writes : ∀ v, env.json_text v = ofList (write_compact p v)) (deltas : List String) :
    (join (deltas.map (escape_json_delta env))).toList = escaped (join deltas) := by
  induction deltas with
  | nil => rfl
  | cons _ _ ih =>
    rw [map_cons,join_cons,join_cons,String.toList_append,ih,toList_escape_json_delta writes,escaped,
      escaped,escaped,String.toList_append,flatMap_append]

def streamed_code (container_id code : String) : JsonValue :=
  .object [("containerId",.string container_id),("code",.string code)]

theorem code_glued (writes : ∀ v, env.json_text v = ofList (write_compact p v)) (container_id code body : String)
    (spelled : body.toList = escaped code) :
    (code_opening env container_id ++ body ++ "\"\x7d").toList = write_compact p (streamed_code container_id code) := by
  have first : ("\x7b\"containerId\":\"" : String).toList = '\x7b' :: (quoted "containerId" ++ [':','"']) := by
    decide
  have second : ("\",\"code\":\"" : String).toList = '"' :: ',' :: (quoted "code" ++ [':','"']) := by decide
  have last : ("\"\x7d" : String).toList = ['"','\x7d'] := by decide
  unfold code_opening
  simp only [String.toList_append,first,second,last,spelled,toList_escape_json_delta writes]
  simp [streamed_code,write_compact,compact_entries,commas,intercalate,quoted,escaped]

def streamed_patch (call_id op_type path diff : String) : JsonValue :=
  .object [("callId",.string call_id),("operation",.object [("type",.string op_type),("path",.string path),("diff",.string diff)])]

theorem patch_glued (writes : ∀ v, env.json_text v = String.ofList (write_compact p v))
    (call_id op_type path diff body : String)
    (spelled : body.toList = escaped diff) :
    (patch_opening env call_id op_type path ++ body ++ "\"\x7d\x7d").toList =
      write_compact p (streamed_patch call_id op_type path diff) := by
  have first : ("\x7b\"callId\":\"" : String).toList = '\x7b' :: (quoted "callId" ++ [':','"']) := by decide
  have second : ("\",\"operation\":\x7b\"type\":\"" : String).toList =
      '"' :: ',' :: (quoted "operation" ++ ':' :: '\x7b' :: (quoted "type" ++ [':','"'])) := by decide
  have third : ("\",\"path\":\"" : String).toList = '"' :: ',' :: (quoted "path" ++ [':','"']) := by decide
  have fourth : ("\",\"diff\":\"" : String).toList = '"' :: ',' :: (quoted "diff" ++ [':','"']) := by decide
  have last : ("\"\x7d\x7d" : String).toList = ['"','\x7d','\x7d'] := by decide
  unfold patch_opening
  simp only [String.toList_append,first,second,third,fourth,last,spelled,toList_escape_json_delta writes]
  simp [streamed_patch,write_compact,compact_entries,commas,intercalate,quoted,escaped]

/-- An operation with its three members, in any order. -/
structure Operation (entries : JsonObject) (op_type path diff : String) : Prop where
  perm : entries.Perm [("type",.string op_type),("path",.string path),("diff",.string diff)]

variable {entries : JsonObject} {op_type path diff : String}

section
variable (operation : Operation entries op_type path diff)
include operation

theorem Operation.keyed : JsonObject.Keyed entries := by
  unfold JsonObject.Keyed
  rw [(operation.perm.map _).nodup_iff]
  exact (by decide : ["type","path","diff"].Nodup)

theorem Operation.lookup (key : String) :
    entries.lookup key = List.lookup key [("type",.string op_type),("path",.string path),("diff",.string diff)] := by
  have other : JsonObject.Keyed [("type",.string op_type),("path",.string path),("diff",.string diff)] :=
    (by decide : ["type","path","diff"].Nodup)
  refine Option.ext fun value => ?_
  exact (JsonObject.get_eq_some operation.keyed).trans
    (operation.perm.mem_iff.trans (JsonObject.get_eq_some other).symm)

theorem Operation.strings :
    ∀ entry ∈ entries, ∃ text, entry.2 = .string text := by
  intro entry mem
  have listed := operation.perm.mem_iff.mp mem
  simp only [mem_cons,not_mem_nil,or_false] at listed
  rcases listed with rfl | rfl | rfl <;> exact ⟨_,rfl⟩

end

theorem held_strings (keyed : JsonObject.Keyed entries)
    (strings : ∀ entry ∈ entries, ∃ text, entry.2 = .string text) (n : Nat) :
    held number (n + 1) (denoted p (.object entries)) = some (.object entries) :=
  held_denoted_object keyed fun entry mem => by
    obtain ⟨text,same⟩ := strings entry mem
    rw [same]
    exact held_denoted_string text

theorem finite_strings (strings : ∀ entry ∈ entries, ∃ text, entry.2 = .string text) : FloatsFinite
    (.object entries) := by
  rw [FloatsFinite,entriesFinite_iff]
  intro entry mem
  obtain ⟨text,same⟩ := strings entry mem
  rw [same]
  exact trivial

def patch_value (call_id : String) (entries : JsonObject) : JsonValue :=
  .object [("callId",.string call_id),("operation",.object entries)]

theorem held_patch (keyed : JsonObject.Keyed entries) (strings : ∀ entry ∈ entries, ∃ text, entry.2 = .string text)
    (call_id : String) (n : Nat) :
    held number (n + 2) (denoted p (patch_value call_id entries)) = some (patch_value call_id entries) := by
  refine held_denoted_object (by decide : ["callId","operation"].Nodup) fun entry mem => ?_
  simp only [mem_cons,not_mem_nil,or_false] at mem
  rcases mem with rfl | rfl
  · exact held_denoted_string call_id
  · exact held_strings keyed strings n

theorem finite_patch (strings : ∀ entry ∈ entries, ∃ text, entry.2 = .string text) (call_id : String) :
    FloatsFinite (patch_value call_id entries) := ⟨trivial,finite_strings strings,trivial⟩

theorem same_string {first second : String} : Same p (.string first) (.string second) ↔ first = second := by
  constructor
  · intro same
    cases same
    rfl
  · rintro rfl
    exact .string first

variable {others : JsonObject} {id container_id call_id : String} {added done : OutputItem}

theorem same_strings (strings : ∀ entry ∈ entries, ∃ text, entry.2 = .string text)
    (equal : ∀ key : String, entries.lookup key = others.lookup key) : Same p (.object entries) (.object others) := by
  refine .object (fun key => by rw [equal]) fun key x y first second => ?_
  obtain ⟨text,same⟩ := strings (key,x) (Assoc.mem_of_lookup first)
  rw [equal,second] at first
  cases first
  rw [show x = .string text from same]
  exact .string text

theorem same_code (container_id code other : String) :
    Same p (streamed_code container_id other) (OutputMapper.code_input (some (.string code)) (some (.string container_id))) ↔
      other = code := by
  constructor
  · intro same
    cases same with
    | object keys members => exact same_string.mp (members "code" (.string other) (.string code) rfl rfl)
  · rintro rfl
    refine same_strings (by simp) fun key => ?_
    simp only [or_null,Option.getD_some,lookup_cons,lookup_nil]
    cases container : key == "containerId" with
    | false => rfl
    | true =>
      obtain rfl := eq_of_beq container
      rfl

theorem same_patch (strings : ∀ entry ∈ entries, ∃ text, entry.2 = .string text)
    (equal : ∀ key : String, entries.lookup key = others.lookup key) (call_id : String) :
    Same p (patch_value call_id entries) (patch_value call_id others) := by
  refine .object (fun key => by simp only [lookup_cons,lookup_nil]; split <;> [rfl; split <;> rfl])
    fun key x y first second => ?_
  simp only [lookup_cons,lookup_nil] at first second
  cases call : key == "callId" with
  | true =>
    rw [call] at first second
    cases first
    cases second
    exact .string call_id
  | false =>
    rw [call] at first second
    cases operation : key == "operation" with
    | true =>
      rw [operation] at first second
      cases first
      cases second
      exact same_strings strings equal
    | false =>
      rw [operation] at first
      cases first

theorem watch_code_deltas (call : OngoingToolCall) (deltas : List String) :
    watch_all env (some call) (deltas.map .CodeDelta) =
      (some call,⟨deltas.map fun delta => (call.tool_call_id,escape_json_delta env delta),[]⟩) := by
  induction deltas with
  | nil => rfl
  | cons delta rest ih =>
    rw [map_cons,watch_all,watch,ih]
    rfl

def patch_call (call_id : String) (has_diff end_emitted : Bool) : OngoingToolCall :=
  { OngoingToolCall.plain call_id with apply_patch := some ⟨has_diff,end_emitted⟩ }

theorem watch_diff_deltas (call_id : String) (deltas : List String) (has_diff : Bool) :
    watch_all env (some (patch_call call_id has_diff false)) (deltas.map .DiffDelta) =
      (some (patch_call call_id (has_diff || !deltas.isEmpty) false),
        ⟨deltas.map fun delta => (call_id,escape_json_delta env delta),[]⟩) := by
  induction deltas generalizing has_diff with
  | nil => simp [watch_all]
  | cons delta rest ih =>
    have first : watch env (some (patch_call call_id has_diff false)) (.DiffDelta delta) =
        (some (patch_call call_id true false),⟨[(call_id,escape_json_delta env delta)],[]⟩) := rfl
    rw [map_cons,watch_all,first,ih]
    simp [Inputs.append]

inductive CodeStreamed (container_id code : String) (deltas : List String) : List ItemEvent → Prop where
  | open_item {item : OutputItem} (container : item.get "container_id" = some (.string container_id))
      (split : deltas = [] ∨ String.join deltas = code) :
      CodeStreamed container_id code deltas
        (.CodeAdded item :: (deltas.map .CodeDelta ++ [.CodeDone (some (.string code))]))
  | done_item {item done : OutputItem} (container : item.get "container_id" = some (.string container_id))
      (split : deltas = [] ∨ String.join deltas = code) :
      CodeStreamed container_id code deltas
        (.CodeAdded item :: (deltas.map .CodeDelta ++ [.CodeDone (some (.string code)),.CodeItemDone done]))

structure PatchItems (call_id op_type path diff : String) (added done : OutputItem) : Prop where
  added_id : added.get "call_id" = some (.string call_id)
  added_type : operation_text (or_null (added.get "operation")) "type" = op_type
  added_path : operation_text (or_null (added.get "operation")) "path" = path
  done_id : done.get "call_id" = some (.string call_id)
  operation : ∃ entries, done.get "operation" = some (.object entries) ∧ Operation entries op_type path diff
  completed : done.status = some "completed"
  kept : op_type ≠ "delete_file"

inductive PatchStreamed (call_id op_type path diff : String) (deltas : List String) : List ItemEvent → Prop where
  | diff_done {added done : OutputItem} (items : PatchItems call_id op_type path diff added done)
      (split : deltas = [] ∨ String.join deltas = diff) :
      PatchStreamed call_id op_type path diff deltas
        (.PatchAdded added :: (deltas.map .DiffDelta ++ [.DiffDone (some diff),.PatchItemDone done]))
  | item_done {added done : OutputItem} (items : PatchItems call_id op_type path diff added done)
      (split : deltas = [] ∨ String.join deltas = diff) :
      PatchStreamed call_id op_type path diff deltas
        (.PatchAdded added :: (deltas.map .DiffDelta ++ [.PatchItemDone done]))

def Agrees (from_str : String → Option JsonValue) (p : Primitives) (inputs : Inputs) : Prop :=
  ∃ id input v w, inputs.calls = [(id,input)] ∧ (∀ delta ∈ inputs.deltas, delta.1 = id) ∧
    from_str (String.join (inputs.deltas.map (·.2))) = some v ∧ from_str input = some w ∧ Same p v w

def glued (id opening : String) (middle : List String) (closing : String) : List (ToolCallId × String) :=
  (id,opening) :: (middle.map (id,·) ++ [(id,closing)])

theorem join_glued (id opening : String) (middle : List String) (closing : String) :
    String.join ((glued id opening middle closing).map (·.2)) = opening ++ String.join middle ++ closing := by
  have texts : (glued id opening middle closing).map (·.2) = opening :: (middle ++ [closing]) := by
    simp [glued,Function.comp_def]
  rw [texts,String.join_cons,String.join_append,String.join_cons,String.join_nil,String.append_empty,String.append_assoc]

theorem ids_glued {opening closing : String} {middle : List String} :
    ∀ delta ∈ glued id opening middle closing, delta.1 = id := by
  intro delta mem
  simp only [glued,mem_cons,mem_append,mem_map,not_mem_nil,or_false] at mem
  rcases mem with rfl | ⟨text,_,rfl⟩ | rfl <;> rfl

theorem watch_code_streamed {code : String} {deltas : List String} {events : List ItemEvent}
    (streamed : CodeStreamed container_id code deltas events) (slot : Option OngoingToolCall) :
    ∃ id, (watch_all env slot events).2 =
      ⟨glued id (code_opening env container_id) (deltas.map (escape_json_delta env)) "\"\x7d",
        [(id,env.json_text (OutputMapper.code_input (some (.string code)) (some (.string container_id))))]⟩ := by
  cases streamed with
  | @open_item item container =>
    refine ⟨item.id_str,?_⟩
    rw [watch_all,watch_all_append]
    simp only [watch,OutputItem.get_str,container,watch_code_deltas]
    simp [watch_all,watch,append,glued,Function.comp_def,plain,as_str]
  | @done_item item done container =>
    refine ⟨item.id_str,?_⟩
    rw [watch_all,watch_all_append]
    simp only [watch,OutputItem.get_str,container,watch_code_deltas]
    simp [watch_all,watch,append,glued,Function.comp_def,plain,as_str]

def diff_fragments (env : Environment) (deltas : List String) (diff : String) : List String :=
  if deltas = [] then [escape_json_delta env diff] else deltas.map (escape_json_delta env)

theorem toList_diff_fragments (writes : ∀ v, env.json_text v = ofList (write_compact p v)) {deltas : List String}
    (split : deltas = [] ∨ join deltas = diff) :
    (join (diff_fragments env deltas diff)).toList = escaped diff := by
  unfold diff_fragments
  split_ifs with none_
  · rw [join_cons,String.join_nil,String.append_empty,toList_escape_json_delta writes]
  · rw [toList_escaped_join writes,split.resolve_left none_]

theorem watch_patch_added (items : PatchItems call_id op_type path diff added done)
    (slot : Option OngoingToolCall) : watch env slot (.PatchAdded added) =
      (some (patch_call call_id false false),⟨[(call_id,patch_opening env call_id op_type path)],[]⟩) := by
  have kept : decide (op_type = "delete_file") = false := decide_eq_false items.kept
  simp [watch,OutputItem.get_str,items.added_id,items.added_type,items.added_path,kept,as_str,patch_call]

theorem watch_patch_done (items : PatchItems call_id op_type path diff added done)
    {entries : JsonObject} (held : done.get "operation" = some (.object entries))
    (operation : Operation entries op_type path diff) (has_diff end_emitted : Bool) :
    watch env (some (patch_call call_id has_diff end_emitted)) (.PatchItemDone done) =
      (none,⟨if end_emitted then [] else closing_inputs env call_id ⟨has_diff,false⟩ diff,
        [(call_id,env.json_text (patch_value call_id entries))]⟩) := by
  have type : operation_text (.object entries) "type" = op_type := by
    simp [operation_text,JsonValue.get,JsonObject.get,operation.lookup,value_text,JsonValue.as_object,as_str]
  have text : operation_text (.object entries) "diff" = diff := by
    simp [operation_text,JsonValue.get,JsonObject.get,operation.lookup,value_text,JsonValue.as_object,as_str,
      lookup_cons]
  rw [watch.eq_def]
  cases end_emitted <;>
    simp [held,or_null,items.completed,items.done_id,item_closing_inputs,patch_call,type,text,items.kept,patch_value,
      plain]

theorem watch_patch_streamed {deltas : List String} {events : List ItemEvent}
    (streamed : PatchStreamed call_id op_type path diff deltas events) (slot : Option OngoingToolCall) :
    ∃ entries, Operation entries op_type path diff ∧ (watch_all env slot events).2 =
      ⟨glued call_id (patch_opening env call_id op_type path) (diff_fragments env deltas diff) "\"\x7d\x7d",
        [(call_id,env.json_text (patch_value call_id entries))]⟩ := by
  cases streamed with
  | diff_done items =>
    obtain ⟨entries,held,operation⟩ := items.operation
    refine ⟨entries,operation,?_⟩
    have ends (has_diff : Bool) : watch env (some (patch_call call_id has_diff false)) (.DiffDone (some diff)) =
        (some (patch_call call_id true true),⟨closing_inputs env call_id ⟨has_diff,false⟩ diff,[]⟩) := rfl
    rw [watch_all,watch_patch_added items,watch_all_append,watch_diff_deltas]
    simp only [watch_all,ends,watch_patch_done items held operation]
    cases deltas <;> simp [append,glued,diff_fragments,closing_inputs]
  | item_done items =>
    obtain ⟨entries,held,operation⟩ := items.operation
    refine ⟨entries,operation,?_⟩
    rw [watch_all,watch_patch_added items,watch_all_append,watch_diff_deltas]
    simp only [watch_all,watch_patch_done items held operation]
    cases deltas <;> simp [append,glued,diff_fragments,closing_inputs]

/-! ### Agreement -/

theorem reads_strings {n : Nat} (serde : SerdeJson env.from_str env.json_text p number (n + 2)) {fields : JsonObject}
    (keyed : (fields.map (·.1)).Nodup) (strings : ∀ entry ∈ fields, ∃ text, entry.2 = .string text) {text : String}
    (written : text.toList = write_compact p (.object fields)) : env.from_str text = some (.object fields) :=
  serde.reads_compact (finite_strings strings) (held_strings keyed strings (n + 1)) written

variable (serde : SerdeJson env.from_str env.json_text p number limit)
include serde

theorem code_agrees_iff (deep : 2 ≤ limit) {code : String} {deltas : List String}
    (split : deltas = [] ∨ join deltas = code) :
    Agrees env.from_str p ⟨glued id (code_opening env container_id) (deltas.map (escape_json_delta env)) "\"\x7d",
      [(id,env.json_text (OutputMapper.code_input (some (.string code)) (some (.string container_id))))]⟩ ↔
      deltas ≠ [] ∨ code = "" := by
  obtain ⟨n,rfl⟩ := Nat.exists_eq_add_of_le' deep
  have spelled := code_glued serde.writes container_id (join deltas) _ (toList_escaped_join serde.writes deltas)
  have streamed : env.from_str (code_opening env container_id ++ join (deltas.map (escape_json_delta env)) ++ "\"\x7d") =
      some (streamed_code container_id (join deltas)) := by
    refine reads_strings serde ?_ (by simp) spelled
    exact (by decide : ["containerId","code"].Nodup)
  have called : env.from_str (env.json_text (code_input (some (.string code)) (some (.string container_id)))) =
      some (code_input (some (.string code)) (some (.string container_id))) := by
    refine reads_strings serde ?_ (by simp [or_null]) (by rw [serde.writes,toList_ofList,code_input])
    exact (by decide : ["code","containerId"].Nodup)
  have whole : Agrees env.from_str p ⟨glued id (code_opening env container_id) (deltas.map (escape_json_delta env)) "\"\x7d",
      [(id,env.json_text (code_input (some (.string code)) (some (.string container_id))))]⟩ ↔
      join deltas = code := by
    rw [← same_code (p := p) container_id]
    constructor
    · rintro ⟨_,_,v,w,calls,_,reads,input,same⟩
      obtain ⟨_,rfl⟩ := Prod.mk.inj (List.singleton_inj.mp calls)
      rw [join_glued,streamed] at reads
      rw [called] at input
      cases reads
      cases input
      exact same
    · intro same
      exact ⟨id,_,_,_,rfl,ids_glued,by rw [join_glued]; exact streamed,called,same⟩
  rw [whole]
  constructor
  · intro same
    by_cases none_ : deltas = []
    · subst none_
      exact .inr same.symm
    · exact .inl none_
  · rintro (some_ | empty)
    · exact split.resolve_left some_
    · rcases split with rfl | same
      · exact empty.symm
      · exact same

theorem patch_agrees (deep : 2 ≤ limit) {deltas : List String}
    (split : deltas = [] ∨ join deltas = diff) (operation : Operation entries op_type path diff) :
    Agrees env.from_str p
      ⟨glued call_id (patch_opening env call_id op_type path) (diff_fragments env deltas diff) "\"\x7d\x7d",
        [(call_id,env.json_text (patch_value call_id entries))]⟩ := by
  obtain ⟨n,rfl⟩ := Nat.exists_eq_add_of_le' deep
  have ordered : Operation [("type",.string op_type),("path",.string path),("diff",.string diff)] op_type path diff := ⟨.refl _⟩
  have spelled := patch_glued serde.writes call_id op_type path diff _ (toList_diff_fragments serde.writes split)
  have streamed : env.from_str (patch_opening env call_id op_type path ++ join (diff_fragments env deltas diff) ++ "\"\x7d\x7d") =
      some (streamed_patch call_id op_type path diff) :=
    serde.reads_compact (finite_patch ordered.strings call_id) (held_patch ordered.keyed ordered.strings call_id n) spelled
  have called : env.from_str (env.json_text (patch_value call_id entries)) = some (patch_value call_id entries) :=
    serde.reads_compact (finite_patch operation.strings call_id) (held_patch operation.keyed operation.strings call_id n)
      (by rw [serde.writes,toList_ofList])
  exact ⟨call_id,_,_,_,rfl,ids_glued,by rw [join_glued]; exact streamed,called,
    same_patch ordered.strings (fun key => (operation.lookup key).symm) call_id⟩

/-- In every run, however the events of the item lie among those of others, the deltas of its input and its call agree:
of a patch always, of a code interpreter exactly when a delta brought the code or there is none. -/
theorem tool_input_agrees (deep : 2 ≤ limit) (include_raw : Bool) (i : Nat) (s : ResponsesStreamState)
    (chunks : List (ParseResult ResponsesChunk)) (events : List ItemEvent) (own : EventsOf i chunks events) :
    (∀ (container_id code : String) (deltas : List String), CodeStreamed container_id code deltas events →
      (Agrees env.from_str p (of (item_parts env include_raw i s chunks)) ↔ deltas ≠ [] ∨ code = "")) ∧
    ∀ (call_id op_type path diff : String) (deltas : List String), PatchStreamed call_id op_type path diff deltas events →
      Agrees env.from_str p (of (item_parts env include_raw i s chunks)) := by
  rw [item_parts_watch include_raw chunks s events own]
  constructor
  · intro container_id code deltas streamed
    obtain ⟨id,emitted⟩ := @watch_code_streamed env container_id code deltas events streamed (s.ongoing i)
    have split : deltas = [] ∨ join deltas = code := by cases streamed <;> assumption
    rw [emitted]
    exact code_agrees_iff serde deep split
  · intro call_id op_type path diff deltas streamed
    obtain ⟨entries,operation,emitted⟩ := @watch_patch_streamed env op_type path diff call_id deltas events streamed (s.ongoing i)
    have split : deltas = [] ∨ join deltas = diff := by cases streamed <;> assumption
    rw [emitted]
    exact patch_agrees serde deep split operation

end

def noFloats : Primitives := ⟨fun _ => ['0'],id,fun _ data => data,fun _ => "",fun _ => none⟩

noncomputable def plainEnvironment : Environment where
  provider_options_key := "openai"
  generate_id n := "id-" ++ toString n
  number_text _ := "0"
  json_text v := ofList (write_compact noFloats v)
  from_str := read (fun _ => none) 128
  read_response _ := none

theorem plainEnvironment_serde :
    SerdeJson plainEnvironment.from_str plainEnvironment.json_text noFloats (fun _ => none) 128 :=
  serdeJson_read 128 (fun _ _ known => by cases known) fun _ _ => JsonText.number_toDigits 0

def indexed (kind : String) (fields : JsonObject) : ParseResult ResponsesChunk :=
  .Ok ⟨kind,("output_index",.number (.PosInt 0)) :: fields⟩ .null

def codeItem (more : JsonObject) : JsonValue :=
  .object ([("type",.string "code_interpreter_call"),("id",.string "ci_1"),("container_id",.string "cntr_1")] ++ more)

def codeChunks (deltas : List String) (code : String) : List (ParseResult ResponsesChunk) :=
  indexed "response.output_item.added" [("item",codeItem [])] ::
    (deltas.map (fun delta => indexed "response.code_interpreter_call_code.delta" [("delta",.string delta)]) ++
      [indexed "response.code_interpreter_call_code.done" [("code",.string code)]])

def codeItemRead : OutputItem := ⟨"code_interpreter_call",some "ci_1",none,[("container_id",.string "cntr_1")]⟩

def freshMapper : OutputMapper := ⟨.default,none,[],false,[],[],false,[],0⟩

theorem codeChunks_events (deltas : List String) (code : String) : EventsOf 0 (codeChunks deltas code)
    (.CodeAdded codeItemRead :: (deltas.map .CodeDelta ++ [.CodeDone (some (.string code))])) := by
  have added : Brought 0 (indexed "response.output_item.added" [("item",codeItem [])]) (.CodeAdded codeItemRead) :=
    ⟨_,_,rfl,.codeAdded ⟨rfl,rfl⟩ rfl rfl⟩
  have delta (text : String) : Brought 0 (indexed "response.code_interpreter_call_code.delta" [("delta",.string text)])
      (.CodeDelta text) := ⟨_,_,rfl,.codeDelta ⟨rfl,rfl⟩ rfl⟩
  have done : Brought 0 (indexed "response.code_interpreter_call_code.done" [("code",.string code)])
      (.CodeDone (some (.string code))) := ⟨_,_,rfl,.codeDone ⟨rfl,rfl⟩⟩
  have all : (codeChunks deltas code).filter (fun chunk => target_of chunk = some 0) = codeChunks deltas code := by
    refine List.filter_eq_self.mpr fun chunk mem => decide_eq_true ?_
    simp only [codeChunks,mem_cons,mem_append,mem_map,not_mem_nil,or_false] at mem
    rcases mem with rfl | ⟨text,_,rfl⟩ | rfl <;> rfl
  unfold EventsOf
  rw [all]
  refine .cons added (rel_append (List.forall₂_map_left_iff.mpr (List.forall₂_map_right_iff.mpr ?_)) (.cons done .nil))
  exact List.forall₂_same.mpr fun text _ => delta text

theorem codeChunks_streamed {deltas : List String} {code : String} (split : deltas = [] ∨ join deltas = code) :
    CodeStreamed "cntr_1" code deltas (.CodeAdded codeItemRead :: (deltas.map .CodeDelta ++ [.CodeDone (some (.string code))])) :=
  .open_item rfl split

theorem tool_input_agrees_split : Agrees plainEnvironment.from_str noFloats (of
    (item_parts plainEnvironment false 0 (.new freshMapper false false) (codeChunks ["print(",")"] "print()"))) :=
  ((tool_input_agrees plainEnvironment_serde (by decide) false 0 _ _ _ (codeChunks_events _ _)).1 _ _ _
    (codeChunks_streamed (.inr (by decide)))).mpr (.inl (by simp))

/-- A code that comes only when it is done is missing in the deltas. -/
theorem code_without_deltas : CodeStreamed "cntr_1" "1" [] [.CodeAdded codeItemRead,.CodeDone (some (.string "1"))] ∧
    EventsOf 0 (codeChunks [] "1") [.CodeAdded codeItemRead,.CodeDone (some (.string "1"))] ∧
    ¬ Agrees plainEnvironment.from_str noFloats (of
      (item_parts plainEnvironment false 0 (.new freshMapper false false) (codeChunks [] "1"))) := by
  refine ⟨codeChunks_streamed (.inl rfl),codeChunks_events [] "1",?_⟩
  rw [item_parts_watch false _ _ _ (codeChunks_events [] "1")]
  obtain ⟨id,emitted⟩ := @watch_code_streamed plainEnvironment _ _ _ _ (@codeChunks_streamed [] "1" (.inl rfl))
    ((ResponsesStreamState.new freshMapper false false).ongoing 0)
  rw [emitted,code_agrees_iff plainEnvironment_serde (by decide) (.inl rfl)]
  simp

end Ferrin.OpenAi.Responses
