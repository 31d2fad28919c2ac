import Ferrin.GenerateText.ParseToolCall
import Ferrin.Library.StableSort
import Mathlib.Data.List.Perm.Basic
import Mathlib.Data.String.Basic

/-!
The definitions of the tools that a call sends: first the active tools of the
order list, then the others by name. A name that the list repeats repeats its
tool as well.
-/
namespace Ferrin.Prompt
open StableSort List Assoc
open GenerateText (ToolChoice)

inductive Description where
  | Static (text : String)
  | Dynamic (function : Option JsonValue → String)

def Description.resolve (ctx : Option JsonValue) : Description → String
  | .Static text => text
  | .Dynamic function => function ctx

/-- A tool, with what the model is told about it. -/
structure DefinedTool extends Tool where
  description : Option Description
  input_schema : JsonValue
  strict : Option Bool
  input_examples : List JsonObject
  provider_options : Option JsonObject

abbrev DefinedTools := List (ToolName × DefinedTool)

inductive ToolDefinition where
  | Function (name : ToolName) (description : Option String) (input_schema : JsonValue) (strict : Option Bool)
    (input_examples : List JsonObject) (provider_options : Option JsonObject)
  | Provider (id : String) (name : ToolName) (args : JsonObject)

def ToolDefinition.name : ToolDefinition → ToolName
  | .Function name .. | .Provider _ name _ => name

def DefinedTool.definition (tool : DefinedTool) (name : ToolName) (description : Option String) : ToolDefinition :=
  match tool.kind with
  | .Function | .Dynamic =>
    .Function name description tool.input_schema tool.strict tool.input_examples tool.provider_options
  | .ProviderDefined id args | .ProviderExecuted id args _ => .Provider id name args

namespace DefinedTools

def names (tools : DefinedTools) : List ToolName := tools.map (·.1)

/-- Keeps only the named tools. Unknown names are ignored. -/
def filter_active (tools : DefinedTools) (active : List ToolName) : DefinedTools := tools.filter (·.1 ∈ active)

def listed (tools : DefinedTools) (order : List ToolName) : DefinedTools :=
  order.filterMap fun name => (tools.lookup name).map (name,·)

def others (tools : DefinedTools) (order : List ToolName) : DefinedTools := tools.filter (·.1 ∉ order)

def ordered (tools : DefinedTools) (order : List ToolName) : DefinedTools :=
  tools.listed order ++ sortByKey (·.1) (tools.others order)

end DefinedTools

structure PreparedTools where
  definitions : List ToolDefinition
  tool_choice : Option ToolChoice

def prepare_tool (tools_context : Option JsonValue) (entry : ToolName × DefinedTool) : Except Error ToolDefinition :=
  match entry.2.validate_named_context entry.1 tools_context with
  | .ok ctx => .ok (entry.2.definition entry.1 (entry.2.description.map (·.resolve ctx)))
  | .error error => .error (.InvalidArgument "tools_context" error)

def active (tools : DefinedTools) (active_tools : Option (List ToolName)) : DefinedTools :=
  match active_tools with
  | some names => tools.filter_active names
  | none => tools

def prepare_tools (tools : DefinedTools) (active_tools : Option (List ToolName)) (tool_order : List ToolName)
    (tool_choice : Option ToolChoice) (tools_context : Option JsonValue) : Except Error PreparedTools :=
  let filtered := active tools active_tools
  if filtered.isEmpty then .ok ⟨[],none⟩
  else do
    let definitions ← (filtered.ordered tool_order).mapM (prepare_tool tools_context)
    return ⟨definitions,tool_choice⟩

/-! ### What is sent -/

def mentions : List ToolName → List ToolName
  | [] => []
  | name :: rest => name :: (mentions rest).filter (· ≠ name)

structure SendingOrder (tools : DefinedTools) (order : List ToolName) (sent : DefinedTools) : Prop where
  perm : sent.Perm tools
  sorted : ∃ first second : DefinedTools, sent = first ++ second ∧
    first.names = (mentions order).filter (· ∈ tools.names) ∧ second.names.Pairwise (· ≤ ·) ∧ ∀ name ∈ second.names, name ∉ order

section
variable {tools tools' : DefinedTools} {order : List ToolName} {tools_context : Option JsonValue}

theorem mentions_filter {p : ToolName → Bool} (once : (order.filter p).Nodup) :
    (mentions order).filter p = order.filter p := by
  induction order with
  | nil => rfl
  | cons name _ ih =>
    rw [mentions]
    by_cases kept : p name = true
    · rw [filter_cons_of_pos kept] at once ⊢
      obtain ⟨fresh,once⟩ := List.nodup_cons.mp once
      rw [filter_cons_of_pos kept,filter_comm,ih once]
      refine congrArg _ (List.filter_eq_self.mpr fun other mem => decide_eq_true ?_)
      rintro rfl
      exact fresh mem
    · rw [filter_cons_of_neg kept] at once ⊢
      rw [filter_cons_of_neg kept,filter_comm,ih once]
      refine List.filter_eq_self.mpr fun other mem => decide_eq_true ?_
      rintro rfl
      exact kept (List.mem_filter.mp mem).2

theorem listed_names (tools : DefinedTools) (order : List ToolName) :
    (tools.listed order).names = order.filter (· ∈ tools.names) := by
  rw [DefinedTools.listed,DefinedTools.names,map_filterMap]
  induction order with
  | nil => rfl
  | cons name _ ih =>
    rw [filterMap_cons,filter_cons]
    cases found : tools.lookup name with
    | none =>
      have absent : name ∉ tools.names := by
        intro mem
        obtain ⟨_,inside,rfl⟩ := List.mem_map.mp mem
        simpa [found] using lookup_isSome_of_mem inside
      simpa [absent] using ih
    | some =>
      have known : name ∈ tools.names := List.mem_map.mpr ⟨_,mem_of_lookup found,rfl⟩
      simpa [known] using ih

theorem mem_ordered (unique : tools.names.Nodup) (entry : ToolName × DefinedTool) :
    entry ∈ tools.ordered order ↔ entry ∈ tools := by
  obtain ⟨name,_⟩ := entry
  rw [DefinedTools.ordered,mem_append,(sortByKey_perm _ _).mem_iff,DefinedTools.others,mem_filter,
    decide_eq_true_iff,DefinedTools.listed,mem_filterMap]
  constructor
  · rintro (⟨_,-,same⟩ | ⟨mem,-⟩)
    · obtain ⟨_,found,same⟩ := Option.map_eq_some_iff.mp same
      cases same
      exact mem_of_lookup found
    · exact mem
  · intro mem
    by_cases mentioned : name ∈ order
    · exact .inl ⟨name,mentioned,by rw [lookup_of_mem unique mem]; rfl⟩
    · exact .inr ⟨mem,mentioned⟩

theorem mem_others {entry : ToolName × DefinedTool} (mem : entry ∈ sortByKey (·.1) (tools.others order)) :
    entry ∈ tools ∧ entry.1 ∉ order := by
  simpa [DefinedTools.others] using (sortByKey_perm _ _).mem_iff.mp mem

section
variable (unique : tools.names.Nodup)
include unique

theorem nodup_ordered_iff :
    (tools.ordered order).names.Nodup ↔ (order.filter (· ∈ tools.names)).Nodup := by
  rw [← listed_names,DefinedTools.names,DefinedTools.ordered,map_append,nodup_append]
  refine ⟨And.left,fun once => ⟨once,?_,?_⟩⟩
  · exact (((sortByKey_perm _ _).map _).nodup_iff).mpr (unique.sublist (List.filter_sublist.map _))
  · rintro _ first _ second rfl
    rw [← DefinedTools.names,listed_names] at first
    obtain ⟨_,inside,rfl⟩ := List.mem_map.mp second
    exact (mem_others inside).2 (List.mem_filter.mp first).1

theorem ordered_in_order (once : (order.filter (· ∈ tools.names)).Nodup) :
    SendingOrder tools order (tools.ordered order) := by
  have names := (nodup_ordered_iff unique).mpr once
  refine ⟨(perm_ext_iff_of_nodup names.of_map unique.of_map).mpr (mem_ordered unique),_,_,rfl,?_,?_,?_⟩
  · rw [listed_names,mentions_filter once]
  · exact List.pairwise_map.mpr (sortByKey_sorted _ _)
  · intro name mem
    obtain ⟨_,inside,rfl⟩ := List.mem_map.mp mem
    exact (mem_others inside).2

theorem lookup_perm (same : tools'.Perm tools) (name : ToolName) :
    tools'.lookup name = tools.lookup name := by
  have unique' : tools'.names.Nodup := (same.map _).nodup_iff.mpr unique
  refine Option.ext fun tool => ⟨fun found => ?_,fun found => ?_⟩
  · exact lookup_of_mem unique (same.mem_iff.mp (mem_of_lookup found))
  · exact lookup_of_mem unique' (same.mem_iff.mpr (mem_of_lookup found))

theorem active_names (active_tools : Option (List ToolName)) :
    (active tools active_tools).names.Nodup := by
  cases active_tools with
  | none => exact unique
  | some => exact unique.sublist (List.filter_sublist.map _)

end

theorem active_perm (same : tools'.Perm tools) (active_tools : Option (List ToolName)) :
    (active tools' active_tools).Perm (active tools active_tools) := by
  cases active_tools with
  | none => exact same
  | some => exact same.filter _

theorem ordered_perm (unique : tools.names.Nodup) (same : tools'.Perm tools) : tools'.ordered order = tools.ordered order := by
  have rest : sortByKey (·.1) (tools'.others order) = sortByKey (·.1) (tools.others order) := by
    have perm := ((sortByKey_perm (·.1) (tools'.others order)).trans (same.filter _)).trans
      (sortByKey_perm (·.1) (tools.others order)).symm
    refine perm.eq_of_pairwise ?_ (sortByKey_sorted _ _) (sortByKey_sorted _ _)
    intro first second mem member' low high
    have one := (List.mem_filter.mp ((sortByKey_perm _ _).mem_iff.mp mem)).1
    have other := (List.mem_filter.mp ((sortByKey_perm _ _).mem_iff.mp member')).1
    exact inj_on_of_nodup_map unique (same.mem_iff.mp one) other (le_antisymm low high)
  rw [DefinedTools.ordered,DefinedTools.ordered,rest]
  refine congrArg (· ++ _) (filterMap_congr fun name _ => ?_)
  rw [lookup_perm unique same]

theorem prepare_tool_name {entry : ToolName × DefinedTool} {sent : ToolDefinition}
    (done : prepare_tool tools_context entry = .ok sent) : sent.name = entry.1 := by
  unfold prepare_tool at done
  split at done
  · cases done
    unfold DefinedTool.definition
    split <;> rfl
  · cases done

theorem prepared_names {sent : DefinedTools} {definitions : List ToolDefinition}
    (made : List.Forall₂ (fun entry definition => prepare_tool tools_context entry = .ok definition) sent definitions) :
    sent.names = definitions.map (·.name) := by
  induction made with
  | nil => rfl
  | cons first _ ih => rw [DefinedTools.names,map_cons,map_cons,← ih,prepare_tool_name first,DefinedTools.names]

theorem prepare_definitions {active_tools : Option (List ToolName)} {choice : Option ToolChoice} {prepared : PreparedTools}
    (done : prepare_tools tools active_tools order choice tools_context = .ok prepared) :
    List.Forall₂ (fun entry sent => prepare_tool tools_context entry = .ok sent) ((active tools active_tools).ordered order)
      prepared.definitions := by
  rw [← Result.mapM_ok]
  unfold prepare_tools at done
  dsimp only at done
  split at done
  · rename_i none_
    cases done
    rw [List.isEmpty_iff.mp none_]
    have nothing : DefinedTools.ordered [] order = [] := by simp [DefinedTools.ordered,DefinedTools.listed,DefinedTools.others,sortByKey]
    rw [nothing]
    rfl
  · obtain ⟨_,sent,done⟩ := Result.bind_ok.mp done
    cases done
    exact sent

theorem prepare_perm (unique : tools.names.Nodup) (same : tools'.Perm tools) (active_tools : Option (List ToolName))
    (choice : Option ToolChoice) : prepare_tools tools' active_tools order choice tools_context =
      prepare_tools tools active_tools order choice tools_context := by
  have perm := active_perm same active_tools
  have nothing : (active tools' active_tools).isEmpty = (active tools active_tools).isEmpty := by
    rw [Bool.eq_iff_iff,List.isEmpty_iff,List.isEmpty_iff]
    exact ⟨fun empty => (empty ▸ perm).symm.eq_nil,fun empty => (empty ▸ perm).eq_nil⟩
  simp only [prepare_tools,nothing,ordered_perm (active_names unique active_tools) perm]

/-- A call sends every active tool once, in the sending order, just where its order list repeats none of them. -/
theorem sent_once_iff {active_tools : Option (List ToolName)} {choice : Option ToolChoice} {prepared : PreparedTools}
    (unique : tools.names.Nodup) (done : prepare_tools tools active_tools order choice tools_context = .ok prepared) :
    ((∃ sent, SendingOrder (active tools active_tools) order sent ∧
        List.Forall₂ (fun entry definition => prepare_tool tools_context entry = .ok definition) sent prepared.definitions) ∧
      ∀ tools' : DefinedTools, tools'.Perm tools →
        prepare_tools tools' active_tools order choice tools_context = .ok prepared) ↔
    (order.filter (· ∈ (active tools active_tools).names)).Nodup := by
  have filtered := active_names unique active_tools
  have made := prepare_definitions done
  refine ⟨fun ⟨⟨sent,in_order,made'⟩,_⟩ => ?_,fun once => ⟨⟨_,ordered_in_order filtered once,made⟩,fun tools' same => ?_⟩⟩
  · have names : sent.names = ((active tools active_tools).ordered order).names :=
      (prepared_names made').trans (prepared_names made).symm
    rw [← nodup_ordered_iff filtered,← names]
    exact (in_order.perm.map _).nodup_iff.mpr filtered
  · exact (prepare_perm unique same active_tools choice).trans done

end

def plainTool : DefinedTool where
  kind := .Function
  title := none
  metadata := none
  validate_input := fun _ input => .ok input
  validate_named_context := fun _ _ => .ok none
  needs_approval := .Never
  execute := none
  to_model_output := none
  description := none
  input_schema := .object []
  strict := none
  input_examples := []
  provider_options := none

def plainDefinition (name : ToolName) : ToolDefinition := .Function name none (.object []) none [] none

theorem sent_once_search :
    ((∃ sent, SendingOrder [("fetch",plainTool),("search",plainTool)] ["search"] sent ∧
        List.Forall₂ (fun entry definition => prepare_tool none entry = .ok definition) sent
          [plainDefinition "search",plainDefinition "fetch"]) ∧
      ∀ tools' : DefinedTools, tools'.Perm [("fetch",plainTool),("search",plainTool)] →
        prepare_tools tools' none ["search"] none none = .ok ⟨[plainDefinition "search",plainDefinition "fetch"],none⟩) ↔
    (["search"].filter (· ∈ ["fetch","search"])).Nodup :=
  @sent_once_iff [("fetch",plainTool),("search",plainTool)] ["search"] none none none _ (by decide) rfl

/-- A tool that the order list names twice is sent twice. -/
theorem search_sent_twice :
    prepare_tools [("search",plainTool)] none ["search","search"] none none =
      .ok ⟨[plainDefinition "search",plainDefinition "search"],none⟩ ∧
    ¬ ∃ sent, SendingOrder [("search",plainTool)] ["search","search"] sent ∧
      List.Forall₂ (fun entry definition => prepare_tool none entry = .ok definition) sent
        [plainDefinition "search",plainDefinition "search"] := by
  refine ⟨rfl,?_⟩
  rintro ⟨sent,in_order,made⟩
  have one := in_order.perm.length_eq
  have two := made.length_eq
  simp at one two
  omega

end Ferrin.Prompt
