import Ferrin.Library.Interleaved
import Ferrin.Library.SortedMap
import Ferrin.Library.StableSort
import Ferrin.Mcp.Protocol.JsonRpc
import Ferrin.Message
import Ferrin.OpenAi.Responses.Output
import Mathlib.Data.String.Basic

/-!
The results of the calls of a parallel wrapper, put together again for a
continuation of server state. The groups are collected from the prompt and
rewritten one after the other in the converted input, so a group is rewritten
whole or not at all as long as no wrapper goes by the id of a child.
-/
namespace Ferrin.OpenAi.Responses
open List Bool
open Mcp.JsonRpc (fields)
open StableSort (sortByKey)

/-! ### Identity -/

structure ParallelIdentity where
  item_id : String
  tool_call_id : String
  tool_name : String
  input : String
  index : Nat
  count : Nat
  deriving DecidableEq

def read_usize : JsonValue → Option Nat
  | .number (.PosInt n) => some n.toNat
  | _ => none

def ParallelIdentity.from_value (value : JsonValue) : Option ParallelIdentity := do
  match ← fields ["itemId","toolCallId","toolName","input","index","count"] value with
  | [item_id,tool_call_id,tool_name,input,index,count] => do
    let item_id ← value_text item_id
    let tool_call_id ← value_text tool_call_id
    let tool_name ← value_text tool_name
    let input ← value_text input
    let index ← index.bind read_usize
    let count ← count.bind read_usize
    some ⟨item_id,tool_call_id,tool_name,input,index,count⟩
  | _ => none

def identity (options : Option ProviderOptions) (key : String) : Option ParallelIdentity := do
  let value ← JsonObject.get (← (← options).lookup key) "parallelToolCall"
  let identity ← ParallelIdentity.from_value value
  if identity.index < identity.count then some identity else none

/-- The identity of a result, with the id of its call. -/
abbrev Child := ParallelIdentity × String

namespace Parallel

structure ConversionContext where
  has_conversation : Bool
  has_previous_response_id : Bool
  provider_options_key : String

structure ConvertedInput where
  input : List JsonValue
  warnings : List Warning

def part_child (key : String) : ToolPromptPart → Option Child
  | .ToolResult result => (identity result.provider_options key).map fun meta_ => (meta_,result.tool_call_id)
  | .ToolApprovalResponse _ => none

def message_children (key : String) : PromptMessage → List Child
  | .Tool content _ => content.filterMap (part_child key)
  | _ => []

def children (key : String) (prompt : Prompt) : List Child := prompt.flatMap (message_children key)

/-- `entry(..).or_default().push(..)`. -/
def push_child (groups : List (String × List Child)) (child : Child) : List (String × List Child) :=
  SortedMap.upsert child.1.tool_call_id (fun known => known.getD [] ++ [child]) groups

def groups (key : String) (prompt : Prompt) : List (String × List Child) :=
  (children key prompt).foldl push_child []

def item_type (item : JsonValue) : Option String := (item.get "type").bind JsonValue.as_str
def call_id (item : JsonValue) : Option String := (item.get "call_id").bind JsonValue.as_str

def is_output_of (child_id : String) (item : JsonValue) : Bool :=
  item_type item = some "function_call_output" && call_id item = some child_id

def is_child (children : List Child) (item : JsonValue) : Bool :=
  (call_id item).any fun id => children.any fun child => child.2 = id

def consistent (first : ParallelIdentity) (children : List Child) : Bool :=
  children.length = first.count && children.zipIdx.all fun entry =>
    entry.1.1.index = entry.2 && entry.1.1.count = first.count && entry.1.1.item_id = first.item_id &&
      entry.1.1.input = first.input && entry.1.1.tool_name = first.tool_name

section
variable (json_text : JsonValue → String)

def child_output (input : List JsonValue) (child_id : String) : Option String := do
  let value ← (← input.find? (is_output_of child_id)).get "output"
  some (value.as_str.getD (json_text value))

def wrapper_call (wrapper_id : String) (first : ParallelIdentity) : JsonValue :=
  .object [("type",.string "function_call"),("call_id",.string wrapper_id),("name",.string first.tool_name),
    ("arguments",.string first.input)]

def wrapper_output (wrapper_id : String) (outputs : List String) : JsonValue :=
  .object [("type",.string "function_call_output"),("call_id",.string wrapper_id),
    ("output",.string ("\n".intercalate outputs))]

def rewrite (has_conversation : Bool) (wrapper_id : String) (first : ParallelIdentity) (children : List Child)
    (outputs : List String) : Bool → Bool → List JsonValue → List JsonValue
  | _,_,[] => []
  | call_emitted,result_emitted,item :: previous =>
    if !is_child children item then
      item :: rewrite has_conversation wrapper_id first children outputs call_emitted result_emitted previous
    else match item_type item with
      | some "function_call" =>
        (if !call_emitted && !has_conversation then [wrapper_call wrapper_id first] else []) ++
          rewrite has_conversation wrapper_id first children outputs true result_emitted previous
      | some "function_call_output" =>
        (if !result_emitted then [wrapper_output wrapper_id outputs] else []) ++
          rewrite has_conversation wrapper_id first children outputs call_emitted true previous
      | _ => item :: rewrite has_conversation wrapper_id first children outputs call_emitted result_emitted previous

def regroup_group (has_conversation : Bool) (input : List JsonValue) (group : String × List Child) : List JsonValue :=
  let children := sortByKey (·.1.index) group.2
  match children with
  | [] => input
  | (first,_) :: _ =>
    if !consistent first children then input
    else match children.mapM fun child => child_output json_text input child.2 with
      | none => input
      | some outputs => rewrite has_conversation group.1 first children outputs false false input

/-- Reassembles complete groups of results for continuations of server state. -/
def regroup (prompt : Prompt) (ctx : ConversionContext) (out : ConvertedInput) : ConvertedInput :=
  if !ctx.has_conversation && !ctx.has_previous_response_id then out
  else { out with input :=
    (groups ctx.provider_options_key prompt).foldl (regroup_group json_text ctx.has_conversation) out.input }

end

def of_wrapper (all : List Child) (wrapper_id : String) : List Child := all.filter (·.1.tool_call_id = wrapper_id)

/-- The indices are those of as many children as each names, and nothing else sets the children apart. -/
structure Complete (children : List Child) : Prop where
  indices : ∀ c ∈ children, (children.map (·.1.index)).Perm (List.range c.1.count)
  alike : ∀ c ∈ children, ∀ d ∈ children, d.1.count = c.1.count ∧ d.1.item_id = c.1.item_id ∧
    d.1.input = c.1.input ∧ d.1.tool_name = c.1.tool_name

def child_kind (kind : String) (children : List Child) (item : JsonValue) : Bool :=
  is_child children item && item_type item = some kind

def of_child (children : List Child) (item : JsonValue) : Bool :=
  child_kind "function_call" children item || child_kind "function_call_output" children item

section
variable (json_text : JsonValue → String)

structure Whole (input : List JsonValue) (children : List Child) : Prop where
  some_ : children ≠ []
  complete : Complete children
  outputs : ∀ c ∈ children, (child_output json_text input c.2).isSome

/-- What stands for a group: its call, if there was one to replace and the server does not have it, and its output. -/
def replacement (has_conversation : Bool) (input : List JsonValue) (wrapper_id : String) (children : List Child) :
    List JsonValue :=
  let children := sortByKey (·.1.index) children
  match children with
  | [] => []
  | (first,_) :: _ =>
    (if !has_conversation && input.any (child_kind "function_call" children) then [wrapper_call wrapper_id first]
      else []) ++
    [wrapper_output wrapper_id (children.filterMap fun child => child_output json_text input child.2)]

/-- What is left of the input in its order, and what stands for the wrappers in between. -/
def Replaced (has_conversation : Bool) (all : List Child) (wrappers : List String) (input out : List JsonValue) : Prop :=
  ∃ items, items.Perm (wrappers.flatMap fun w => replacement json_text has_conversation input w (of_wrapper all w)) ∧
    Interleaved (input.filter fun item => !wrappers.any fun w => of_child (of_wrapper all w) item) items out

structure AllOrNothing (has_conversation : Bool) (all : List Child) (input out : List JsonValue) : Prop where
  replaced : ∃ wrappers : List String, wrappers.Nodup ∧
    (∀ w, w ∈ wrappers ↔ Whole json_text input (of_wrapper all w)) ∧
    Replaced json_text has_conversation all wrappers input out
  gone : ∀ w, Whole json_text input (of_wrapper all w) → ∀ item ∈ out, of_child (of_wrapper all w) item = false
  untouched : ∀ w, ¬Whole json_text input (of_wrapper all w) →
    out.filter (of_child (of_wrapper all w)) = input.filter (of_child (of_wrapper all w))

end

theorem mem_groups {key : String} {prompt : Prompt} {group : String × List Child} :
    group ∈ groups key prompt ↔ group.2 = of_wrapper (children key prompt) group.1 ∧ group.2 ≠ [] :=
  SortedMap.mem_group _

theorem consistent_iff {first : ParallelIdentity} {sorted : List Child} :
    consistent first sorted = true ↔ sorted.map (·.1.index) = List.range first.count ∧
      ∀ c ∈ sorted, c.1.count = first.count ∧ c.1.item_id = first.item_id ∧ c.1.input = first.input ∧
        c.1.tool_name = first.tool_name := by
  have positions : ∀ (l : List Child) (start : Nat), (l.zipIdx start).all (fun entry =>
      entry.1.1.index = entry.2 && entry.1.1.count = first.count && entry.1.1.item_id = first.item_id &&
        entry.1.1.input = first.input && entry.1.1.tool_name = first.tool_name) = true ↔
      l.map (·.1.index) = range' start l.length ∧ ∀ c ∈ l, c.1.count = first.count ∧
        c.1.item_id = first.item_id ∧ c.1.input = first.input ∧ c.1.tool_name = first.tool_name := by
    intro l
    induction l with
    | nil => simp
    | cons _ _ ih =>
      intro start
      rw [zipIdx_cons,all_cons,and_eq_true,ih,map_cons,length_cons,range'_succ]
      simp only [List.cons.injEq,forall_mem_cons,and_eq_true,decide_eq_true_eq]
      tauto
  unfold consistent
  rw [and_eq_true,decide_eq_true_eq,positions,← range_eq_range']
  constructor
  · rintro ⟨length,indices,alike⟩
    exact ⟨length ▸ indices,alike⟩
  · rintro ⟨indices,alike⟩
    have length : sorted.length = first.count := by
      rw [← length_map (·.1.index),indices,length_range]
    exact ⟨length,length ▸ indices,alike⟩

theorem consistent_complete {cs : List Child} {first : ParallelIdentity} {id : String} {rest : List Child}
    (sorted : sortByKey (·.1.index) cs = (first,id) :: rest) :
    consistent first ((first,id) :: rest) = true ↔ Complete cs := by
  have perm : ((first,id) :: rest).Perm cs := sorted ▸ StableSort.sortByKey_perm _ cs
  have head : (first,id) ∈ cs := perm.mem_iff.mp mem_cons_self
  rw [consistent_iff]
  constructor
  · rintro ⟨indices,alike⟩
    have same : ∀ c ∈ cs, _ := fun c mem => alike c (perm.mem_iff.mpr mem)
    refine ⟨fun c mem => ?_,fun c mem d other => ?_⟩
    · rw [(same c mem).1,← indices]
      exact (perm.map _).symm
    · obtain ⟨a,b,e,f⟩ := same c mem
      obtain ⟨a',b',e',f'⟩ := same d other
      exact ⟨a'.trans a.symm,b'.trans b.symm,e'.trans e.symm,f'.trans f.symm⟩
  · rintro ⟨indices,alike⟩
    refine ⟨?_,fun c mem => alike _ head c (perm.mem_iff.mp mem)⟩
    have ordered : (((first,id) :: rest).map (·.1.index)).Pairwise (· ≤ ·) :=
      List.pairwise_map.mpr (sorted ▸ StableSort.sortByKey_sorted _ cs)
    exact ((perm.map _).trans (indices _ head)).eq_of_pairwise
      (fun _ _ _ _ le ge => Nat.le_antisymm le ge) ordered
      (List.pairwise_lt_range.imp Nat.le_of_lt)

theorem mapM_some {α β : Type} (f : α → Option β) (l : List α) :
    l.mapM f = if l.all fun a => (f a).isSome then some (l.filterMap f) else none := by
  induction l with
  | nil => rfl
  | cons a rest ih =>
    rw [mapM_cons,ih]
    cases here : f a with
    | none => simp [here]
    | some => by_cases all : (rest.all fun a => (f a).isSome) = true <;> simp [here,all]

section
variable {json_text : JsonValue → String} {has_conversation : Bool}

theorem is_child_perm {cs ds : List Child} (perm : cs.Perm ds) (item : JsonValue) : is_child cs item = is_child ds item := by
  unfold is_child
  simp only [perm.any_eq]

theorem of_child_perm {cs ds : List Child} (perm : cs.Perm ds) (item : JsonValue) : of_child cs item = of_child ds item := by
  simp only [of_child,child_kind,is_child_perm perm]

section
variable {wrapper_id : String} {first : ParallelIdentity} {cs : List Child} {outputs : List String}
  {call_emitted result_emitted : Bool} {item : JsonValue} {rest : List JsonValue}

theorem rewrite_other (other : of_child cs item = false) :
    rewrite has_conversation wrapper_id first cs outputs call_emitted result_emitted (item :: rest) =
      item :: rewrite has_conversation wrapper_id first cs outputs call_emitted result_emitted rest := by
  rw [rewrite]
  cases child : is_child cs item with
  | false => rfl
  | true =>
    simp only [of_child,child_kind,child,Bool.true_and,or_eq_false_iff,decide_eq_false_iff_not] at other
    simp only [Bool.not_true,false_eq_true,if_false]
    split
    next call => exact absurd call other.1
    next output => exact absurd output other.2
    next => rfl

theorem rewrite_call (child : is_child cs item = true) (call : item_type item = some "function_call") :
    rewrite has_conversation wrapper_id first cs outputs call_emitted result_emitted (item :: rest) =
      (if !call_emitted && !has_conversation then [wrapper_call wrapper_id first] else []) ++
        rewrite has_conversation wrapper_id first cs outputs true result_emitted rest := by
  rw [rewrite,child,call]
  rfl

theorem rewrite_output (child : is_child cs item = true) (output : item_type item = some "function_call_output") :
    rewrite has_conversation wrapper_id first cs outputs call_emitted result_emitted (item :: rest) =
      (if !result_emitted then [wrapper_output wrapper_id outputs] else []) ++
        rewrite has_conversation wrapper_id first cs outputs call_emitted true rest := by
  rw [rewrite,child,output]
  rfl

theorem kind_of_child (child : of_child cs item = true) : is_child cs item = true ∧
    (item_type item = some "function_call" ∨ item_type item = some "function_call_output") := by
  simpa [of_child,child_kind,← and_or_left] using child

end

variable {wrapper_id w : String} {input : List JsonValue} {item : JsonValue}

theorem rewrite_interleaved {first : ParallelIdentity} {cs : List Child} {outputs : List String}
    (call_emitted result_emitted : Bool) (input : List JsonValue) : ∃ items,
    items.Perm ((if !call_emitted && !has_conversation && input.any (child_kind "function_call" cs) then
          [wrapper_call wrapper_id first] else []) ++
      (if !result_emitted && input.any (child_kind "function_call_output" cs) then
          [wrapper_output wrapper_id outputs] else [])) ∧
    Interleaved (input.filter fun item => !of_child cs item) items
      (rewrite has_conversation wrapper_id first cs outputs call_emitted result_emitted input) := by
  induction input generalizing call_emitted result_emitted with
  | nil => exact ⟨[],by simp,.nil⟩
  | cons item _ ih =>
    cases owned : of_child cs item with
    | false =>
      obtain ⟨items,perm,made⟩ := ih call_emitted result_emitted
      have neither : child_kind "function_call" cs item = false ∧ child_kind "function_call_output" cs item = false := by
        simpa [of_child] using owned
      rw [rewrite_other owned,filter_cons_of_pos (by simpa using owned)]
      exact ⟨items,by simpa [neither.1,neither.2] using perm,made.left⟩
    | true =>
      rw [filter_cons_of_neg (by simpa using owned)]
      obtain ⟨child,call | output⟩ := kind_of_child owned
      · obtain ⟨items,perm,made⟩ := ih true result_emitted
        have here : child_kind "function_call" cs item = true ∧ child_kind "function_call_output" cs item = false := by
          simp [child_kind,child,call]
        rw [rewrite_call child call]
        cases emit : !call_emitted && !has_conversation with
        | true => exact ⟨_ :: items,by simpa [here.1,here.2] using perm.cons (wrapper_call wrapper_id first),made.right⟩
        | false => exact ⟨items,by simpa [here.1,here.2] using perm,made⟩
      · obtain ⟨items,perm,made⟩ := ih call_emitted true
        have here : child_kind "function_call" cs item = false ∧ child_kind "function_call_output" cs item = true := by
          simp [child_kind,child,output]
        rw [rewrite_output child output]
        cases result_emitted with
        | false =>
          refine ⟨_ :: items,?_,made.right⟩
          simpa [here.1,here.2] using (perm.cons (wrapper_output wrapper_id outputs)).trans List.perm_middle.symm
        | true => exact ⟨items,by simpa [here.1,here.2] using perm,made⟩

theorem perm_sorted (cs : List Child) : (sortByKey (·.1.index) cs).Perm cs := StableSort.sortByKey_perm _ cs

theorem regroup_group_whole {group : String × List Child} (whole : Whole json_text input group.2) :
    ∃ first id rest, sortByKey (·.1.index) group.2 = (first,id) :: rest ∧
      regroup_group json_text has_conversation input group =
        rewrite has_conversation group.1 first ((first,id) :: rest)
          (((first,id) :: rest).filterMap fun child => child_output json_text input child.2) false false input := by
  have perm := perm_sorted group.2
  cases sorted : sortByKey (fun child : Child => child.1.index) group.2 with
  | nil => exact absurd (sorted ▸ perm).symm.eq_nil whole.some_
  | cons head rest =>
    obtain ⟨first,id⟩ := head
    refine ⟨first,id,rest,rfl,?_⟩
    have outputs : ((first,id) :: rest).all (fun child => (child_output json_text input child.2).isSome) = true :=
      List.all_eq_true.mpr fun c mem => whole.outputs c ((sorted ▸ perm).mem_iff.mp mem)
    rw [regroup_group]
    simp only [sorted,(consistent_complete sorted).mpr whole.complete,mapM_some,outputs,if_true]
    rfl

theorem regroup_group_other {group : String × List Child} (other : ¬Whole json_text input group.2) :
    regroup_group json_text has_conversation input group = input := by
  have perm := perm_sorted group.2
  rw [regroup_group]
  cases sorted : sortByKey (fun child : Child => child.1.index) group.2 with
  | nil => rfl
  | cons head rest =>
    obtain ⟨first,id⟩ := head
    have some_ : group.2 ≠ [] := fun none_ => by simp [none_,sortByKey] at sorted
    cases check : consistent first ((first,id) :: rest) with
    | false => simp [check]
    | true =>
      have missing : ((first,id) :: rest).all (fun child => (child_output json_text input child.2).isSome) = false :=
        Bool.eq_false_iff.mpr fun all => other ⟨some_,(consistent_complete sorted).mp check,fun c mem =>
          List.all_eq_true.mp all c ((sorted ▸ perm).mem_iff.mpr mem)⟩
      simp only [check,mapM_some,missing,false_eq_true,if_false,ite_self]

theorem group_replaced {group : String × List Child} (whole : Whole json_text input group.2) :
    ∃ items, items.Perm (replacement json_text has_conversation input group.1 group.2) ∧
      Interleaved (input.filter fun item => !of_child group.2 item) items
        (regroup_group json_text has_conversation input group) := by
  obtain ⟨first,id,rest,sorted,result⟩ := @regroup_group_whole json_text has_conversation input group whole
  have perm : ((first,id) :: rest).Perm group.2 := sorted ▸ perm_sorted group.2
  -- The first child has an output item, so an output is written.
  have output : input.any (child_kind "function_call_output" ((first,id) :: rest)) = true := by
    have there := whole.outputs (first,id) (perm.mem_iff.mp mem_cons_self)
    cases found : input.find? (is_output_of id) with
    | none => simp [child_output,found] at there
    | some item =>
      have is := find?_some found
      simp only [is_output_of,and_eq_true,decide_eq_true_eq] at is
      refine List.any_eq_true.mpr ⟨item,mem_of_find?_eq_some found,?_⟩
      simp [child_kind,is_child,is.1,is.2]
  obtain ⟨items,written,made⟩ := @rewrite_interleaved has_conversation group.1 first ((first,id) :: rest)
    (((first,id) :: rest).filterMap fun child => child_output json_text input child.2) false false input
  refine ⟨items,?_,?_⟩
  · rw [replacement,sorted]
    simpa only [output,Bool.not_false,Bool.true_and,Bool.and_true,if_true] using written
  · rw [result]
    simpa only [of_child_perm perm] using made

/-! ### The items of a group decide about it -/

section
variable {cs : List Child} {input input' : List JsonValue}
  (same : input.filter (of_child cs) = input'.filter (of_child cs))
include same

theorem child_output_congr {c : Child} (mem : c ∈ cs) :
    child_output json_text input c.2 = child_output json_text input' c.2 := by
  have found : ∀ l : List JsonValue, l.find? (is_output_of c.2) = (l.filter (of_child cs)).find? (is_output_of c.2) := by
    intro l
    rw [find?_filter]
    congr 1
    funext item
    cases is : is_output_of c.2 item with
    | false => simp
    | true =>
      simp only [is_output_of,and_eq_true,decide_eq_true_eq] at is
      have child : is_child cs item = true := by
        simp only [is_child,is.2,Option.any_some,any_eq_true,decide_eq_true_eq]
        exact ⟨c,mem,rfl⟩
      simp [of_child,child_kind,child,is.1]
  rw [child_output,child_output,found input,found input',same]

theorem whole_congr : Whole json_text input cs ↔ Whole json_text input' cs :=
  ⟨fun whole => ⟨whole.some_,whole.complete,fun c member => child_output_congr same member ▸ whole.outputs c member⟩,
    fun whole => ⟨whole.some_,whole.complete,fun c member =>
      (@child_output_congr json_text cs input input' same c member).symm ▸ whole.outputs c member⟩⟩

theorem replacement_congr (wrapper_id : String) : replacement json_text has_conversation input wrapper_id cs =
    replacement json_text has_conversation input' wrapper_id cs := by
  have perm := perm_sorted cs
  rw [replacement,replacement]
  cases sorted : sortByKey (fun child : Child => child.1.index) cs with
  | nil => rfl
  | cons head rest =>
    have outputs : (head :: rest).filterMap (fun child => child_output json_text input child.2) =
        (head :: rest).filterMap fun child => child_output json_text input' child.2 :=
      filterMap_congr fun c mem => child_output_congr same ((sorted ▸ perm).mem_iff.mp mem)
    have calls : ∀ l : List JsonValue, l.any (child_kind "function_call" (head :: rest)) =
        (l.filter (of_child cs)).any (child_kind "function_call" (head :: rest)) := by
      intro l
      rw [any_filter]
      congr 1
      funext item
      rw [← of_child_perm (sorted ▸ perm),of_child]
      cases child_kind "function_call" (head :: rest) item <;> simp
    simp only [outputs,calls input,calls input',same]

end

theorem call_id_replacement {cs : List Child}
    (mem : item ∈ replacement json_text has_conversation input wrapper_id cs) : call_id item = some wrapper_id := by
  rw [replacement] at mem
  cases sorted : sortByKey (fun child : Child => child.1.index) cs with
  | nil => simp [sorted] at mem
  | cons =>
    simp only [sorted,mem_append,mem_singleton] at mem
    rcases mem with call | rfl
    · split_ifs at call with emitted
      · rw [List.mem_singleton.mp call]
        rfl
      · cases call
    · rfl

theorem call_id_of_child {cs : List Child} (child : of_child cs item = true) : ∃ c ∈ cs, call_id item = some c.2 := by
  obtain ⟨child,-⟩ := kind_of_child child
  rw [is_child] at child
  cases id : call_id item with
  | none => simp [id] at child
  | some id =>
    simp only [id,Option.any_some,any_eq_true,decide_eq_true_eq] at child
    obtain ⟨c,mem,same⟩ := child
    exact ⟨c,mem,congrArg some same.symm⟩

theorem of_child_once {all : List Child} (distinct : (all.map (·.2)).Nodup) {w' : String}
    (child : of_child (of_wrapper all w) item = true) (other : of_child (of_wrapper all w') item = true) : w = w' := by
  obtain ⟨c,mem,id⟩ := call_id_of_child child
  obtain ⟨d,member',id'⟩ := call_id_of_child other
  simp only [of_wrapper,mem_filter,decide_eq_true_eq] at mem member'
  have same : c = d := inj_on_of_nodup_map distinct mem.1 member'.1 (Option.some.inj (id.symm.trans id'))
  rw [← mem.2,← member'.2,same]

section
variable {all : List Child} {wrappers : List String} {input out : List JsonValue}

theorem not_of_child {cs : List Child} (id : call_id item = some w)
    (apart : ∀ c ∈ cs, c.2 ≠ w) : of_child cs item = false := by
  rw [eq_false_iff]
  intro child
  obtain ⟨c,mem,same⟩ := call_id_of_child child
  exact apart c mem (Option.some.inj (same.symm.trans id))

theorem written_not_child {items : List JsonValue} (apart : ∀ v ∈ wrappers, ∀ c ∈ all, c.2 ≠ v)
    (written : items.Perm (wrappers.flatMap fun v => replacement json_text has_conversation input v (of_wrapper all v))) :
    ∀ item ∈ items, of_child (of_wrapper all w) item = false := by
  intro item mem
  obtain ⟨v,listed,mem⟩ := List.mem_flatMap.mp (written.mem_iff.mp mem)
  exact not_of_child (call_id_replacement mem) fun c inside => apart v listed c (mem_of_mem_filter inside)

theorem Replaced.untouched (done : Replaced json_text has_conversation all wrappers input out)
    (distinct : (all.map (·.2)).Nodup) (apart : ∀ v ∈ wrappers, ∀ c ∈ all, c.2 ≠ v) (fresh : w ∉ wrappers) :
    out.filter (of_child (of_wrapper all w)) = input.filter (of_child (of_wrapper all w)) := by
  obtain ⟨_,written,made⟩ := done
  rw [made.filter_eq (written_not_child apart written),filter_filter]
  refine filter_congr fun item _ => ?_
  cases child : of_child (of_wrapper all w) item with
  | false => rfl
  | true =>
    have other : (wrappers.any fun v => of_child (of_wrapper all v) item) = false := by
      rw [eq_false_iff]
      intro found
      obtain ⟨v,listed,child'⟩ := List.any_eq_true.mp found
      exact fresh (of_child_once distinct child child' ▸ listed)
    rw [other]
    rfl

theorem Replaced.snoc (done : Replaced json_text has_conversation all wrappers input out)
    (distinct : (all.map (·.2)).Nodup) (apart : ∀ v ∈ wrappers, ∀ c ∈ all, c.2 ≠ v) (fresh : w ∉ wrappers)
    (whole : Whole json_text input (of_wrapper all w)) :
    Replaced json_text has_conversation all (wrappers ++ [w]) input
      (regroup_group json_text has_conversation out (w,of_wrapper all w)) := by
  have same := done.untouched distinct apart fresh
  obtain ⟨items,written,made⟩ := done
  obtain ⟨_,written',made'⟩ := @group_replaced json_text has_conversation out (w,of_wrapper all w)
    ((whole_congr same).mpr whole)
  have kept := made.filter fun item => !of_child (of_wrapper all w) item
  have stay : items.filter (fun item => !of_child (of_wrapper all w) item) = items :=
    List.filter_eq_self.mpr fun item mem => by simp [written_not_child apart written item mem]
  rw [stay,filter_filter] at kept
  obtain ⟨both,joined,inside⟩ := kept.assoc made'
  refine ⟨both,?_,?_⟩
  · rw [flatMap_append,flatMap_singleton,← replacement_congr same]
    exact joined.perm.trans (written.append written')
  · convert inside using 2
    funext item
    simp [any_append,Bool.not_or,Bool.and_comm]

theorem groups_replaced (distinct : (all.map (·.2)).Nodup)
    (apart : ∀ w, Whole json_text input (of_wrapper all w) → ∀ c ∈ all, c.2 ≠ w) (groups : List (String × List Child))
    (own : ∀ group ∈ groups, group.2 = of_wrapper all group.1) (once : (groups.map (·.1)).Nodup) :
    ∃ wrappers : List String, wrappers.Nodup ∧
      (∀ w, w ∈ wrappers ↔ w ∈ groups.map (·.1) ∧ Whole json_text input (of_wrapper all w)) ∧
      Replaced json_text has_conversation all wrappers input
        (groups.foldl (regroup_group json_text has_conversation) input) := by
  induction groups using reverseRecOn with
  | nil => exact ⟨[],.nil,by simp,[],.nil,by simpa using Interleaved.only_left input⟩
  | append_singleton _ group ih =>
    obtain ⟨w,cs⟩ := group
    have here : cs = of_wrapper all w := own (w,cs) (by simp)
    subst here
    rw [map_append,nodup_append] at once
    obtain ⟨wrappers,nodup,exactly,done⟩ := ih (fun group mem => own group (mem_append_left _ mem)) once.1
    have fresh : w ∉ wrappers := fun listed =>
      once.2.2 w ((exactly w).mp listed).1 w (by simp) rfl
    have apart' : ∀ v ∈ wrappers, ∀ c ∈ all, c.2 ≠ v := fun v listed => apart v ((exactly v).mp listed).2
    rw [foldl_append,foldl_cons,foldl_nil]
    by_cases whole : Whole json_text input (of_wrapper all w)
    · refine ⟨wrappers ++ [w],?_,fun v => ?_,done.snoc distinct apart' fresh whole⟩
      · exact List.nodup_append.mpr ⟨nodup,nodup_singleton w,fun a listed b last same =>
          fresh (List.mem_singleton.mp last ▸ same ▸ listed)⟩
      · rw [mem_append,exactly,map_append,mem_append,mem_singleton,map_singleton,mem_singleton]
        constructor
        · rintro (⟨known,is⟩ | rfl)
          · exact ⟨.inl known,is⟩
          · exact ⟨.inr rfl,whole⟩
        · rintro ⟨known | rfl,is⟩
          · exact .inl ⟨known,is⟩
          · exact .inr rfl
    · have same := done.untouched distinct apart' fresh
      rw [regroup_group_other fun other => whole ((whole_congr same).mp other)]
      refine ⟨wrappers,nodup,fun v => ?_,done⟩
      rw [exactly,map_append,mem_append,map_singleton,mem_singleton]
      constructor
      · rintro ⟨known,is⟩
        exact ⟨.inl known,is⟩
      · rintro ⟨known | rfl,is⟩
        · exact ⟨known,is⟩
        · exact absurd is whole

end

end

/-- A continuation of server state replaces whole groups and leaves the others alone, as long as no wrapper of a whole
    group goes by the id of a child. -/
theorem regroup_whole (json_text : JsonValue → String) (prompt : Prompt) (ctx : ConversionContext) (out : ConvertedInput)
    (server : ctx.has_conversation = true ∨ ctx.has_previous_response_id = true)
    (distinct : ((children ctx.provider_options_key prompt).map (·.2)).Nodup)
    (apart : ∀ w, Whole json_text out.input (of_wrapper (children ctx.provider_options_key prompt) w) →
      ∀ c ∈ children ctx.provider_options_key prompt, c.2 ≠ w) :
    AllOrNothing json_text ctx.has_conversation (children ctx.provider_options_key prompt) out.input
      (regroup json_text prompt ctx out).input := by
  have runs : (regroup json_text prompt ctx out).input =
      (groups ctx.provider_options_key prompt).foldl (regroup_group json_text ctx.has_conversation) out.input := by
    rw [regroup]
    rcases server with conversation | response
    · simp [conversation]
    · simp [response]
  rw [runs]
  obtain ⟨wrappers,nodup,exactly,done⟩ := @groups_replaced json_text ctx.has_conversation _ _ distinct apart
    (groups ctx.provider_options_key prompt) (fun group member => (mem_groups.mp member).1)
    (SortedMap.group_sorted _ _).nodup
  have listed : ∀ w, w ∈ wrappers ↔ Whole json_text out.input (of_wrapper (children ctx.provider_options_key prompt) w) := by
    intro w
    refine (exactly w).trans ⟨And.right,fun whole => ⟨?_,whole⟩⟩
    exact List.mem_map.mpr ⟨(w,_),mem_groups.mpr ⟨rfl,whole.some_⟩,rfl⟩
  have apart' : ∀ v ∈ wrappers, ∀ c ∈ children ctx.provider_options_key prompt, c.2 ≠ v :=
    fun v member => apart v ((listed v).mp member)
  refine ⟨⟨wrappers,nodup,listed,done⟩,fun w whole item member => ?_,fun w other =>
    done.untouched distinct apart' fun member => other ((listed w).mp member)⟩
  obtain ⟨items,written,made⟩ := done
  rcases made.mem_iff.mp member with left_ | new
  · have free := (List.mem_filter.mp left_).2
    rw [not_eq_true',any_eq_false] at free
    exact Bool.eq_false_iff.mpr (free w ((listed w).mpr whole))
  · exact written_not_child apart' written item new

/-- A result whose only sibling is itself. -/
def lone_result (wrapper_id child_id : String) : PromptMessage :=
  .Tool [.ToolResult ⟨child_id,"f",.text "",some [("openai",[("parallelToolCall",.object [("itemId",.string "i"),
    ("toolCallId",.string wrapper_id),("toolName",.string "parallel"),("input",.string "in"),
    ("index",.number (.PosInt 0)),("count",.number (.PosInt 1))])])]⟩] none

def output_item (call_id output : String) : JsonValue :=
  .object [("type",.string "function_call_output"),("call_id",.string call_id),("output",.string output)]

def responseContext : ConversionContext := ⟨false,true,"openai"⟩

def lone_child (wrapper_id child_id : String) : Child := (⟨"i",wrapper_id,"parallel","in",0,1⟩,child_id)

theorem regroup_whole_lone : AllOrNothing (fun _ => "") false (children "openai" [lone_result "w" "c"])
    [output_item "c" "1"] (regroup (fun _ => "") [lone_result "w" "c"] responseContext ⟨[output_item "c" "1"],[]⟩).input :=
  regroup_whole (fun _ => "") [lone_result "w" "c"] responseContext ⟨[output_item "c" "1"],[]⟩ (.inr rfl)
    (by decide) (by
      intro w whole c member
      obtain rfl : c = lone_child "w" "c" := List.mem_singleton.mp member
      rintro rfl
      exact whole.some_ (by decide))

/-- The output of a wrapper that goes by the id of a child is taken for the child's and gets lost. -/
theorem wrapper_output_captured : ((children "openai" [lone_result "a" "c",lone_result "b" "a"]).map (·.2)).Nodup ∧
    ¬AllOrNothing (fun _ => "") false (children "openai" [lone_result "a" "c",lone_result "b" "a"])
      [output_item "c" "1",output_item "a" "2"]
      (regroup (fun _ => "") [lone_result "a" "c",lone_result "b" "a"] responseContext
        ⟨[output_item "c" "1",output_item "a" "2"],[]⟩).input := by
  refine ⟨by decide,fun all => ?_⟩
  have result : (regroup (fun _ => "") [lone_result "a" "c",lone_result "b" "a"] responseContext
      ⟨[output_item "c" "1",output_item "a" "2"],[]⟩).input = [output_item "b" "1"] := by decide
  obtain ⟨wrappers,-,listed,items,written,made⟩ := all.replaced
  have group : of_wrapper (children "openai" [lone_result "a" "c",lone_result "b" "a"]) "a" = [lone_child "a" "c"] := by
    decide
  have whole : Whole (fun _ => "") [output_item "c" "1",output_item "a" "2"] [lone_child "a" "c"] :=
    ⟨by simp,⟨by decide,by decide⟩,by decide⟩
  have there : wrapper_output "a" ["1"] ∈ items := by
    refine written.mem_iff.mpr (List.mem_flatMap.mpr ⟨"a",(listed "a").mpr (group ▸ whole),?_⟩)
    rw [group]
    decide
  have kept := made.mem_iff.mpr (.inr there)
  rw [result] at kept
  revert kept
  decide

end Parallel
end Ferrin.OpenAi.Responses
