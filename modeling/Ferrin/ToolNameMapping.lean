import Ferrin.LanguageModel
import Ferrin.Library.Assoc
import Mathlib.Data.List.Nodup

/-!
Renaming between the names that tools have in the application and the names that
the provider expects.
-/
namespace Ferrin.ToolNames
open Assoc List

inductive ToolDefinition where
  | Function (name : ToolName)
  | Provider (id : String) (name : ToolName)

def ToolDefinition.name : ToolDefinition → ToolName
  | .Function name | .Provider _ name => name

structure ToolNameMapping where
  to_provider : List (String × String)
  to_custom : List (String × String)

namespace ToolNameMapping

def default : ToolNameMapping := ⟨[],[]⟩

def with_pair (m : ToolNameMapping) (custom provider : String) : ToolNameMapping :=
  ⟨put m.to_provider custom provider,put m.to_custom provider custom⟩

def add (provider_tool_names : String → Option String) (m : ToolNameMapping) : ToolDefinition → ToolNameMapping
  | .Function _ => m
  | .Provider id name =>
    match provider_tool_names id with
    | some provider_name => m.with_pair name provider_name
    | none => m

def new (tools : List ToolDefinition) (provider_tool_names : String → Option String) : ToolNameMapping :=
  tools.foldl (add provider_tool_names) default

def to_provider_tool_name (m : ToolNameMapping) (custom : String) : String := (m.to_provider.lookup custom).getD custom
def to_custom_tool_name (m : ToolNameMapping) (provider : String) : String := (m.to_custom.lookup provider).getD provider
def is_empty (m : ToolNameMapping) : Bool := m.to_provider.isEmpty

end ToolNameMapping

def newName (provider_tool_names : String → Option String) : ToolDefinition → Option String
  | .Function _ => none
  | .Provider id _ => provider_tool_names id

def wireName (provider_tool_names : String → Option String) (tool : ToolDefinition) : String :=
  (newName provider_tool_names tool).getD tool.name

def pairs (provider_tool_names : String → Option String) (tools : List ToolDefinition) : List (String × String) :=
  tools.filterMap fun tool => (newName provider_tool_names tool).map fun provider_name => (tool.name,provider_name)

section
variable {provider_tool_names : String → Option String} {tools : List ToolDefinition}

theorem add_eq (m : ToolNameMapping) (tool : ToolDefinition) : m.add provider_tool_names tool =
    ((newName provider_tool_names tool).elim m fun provider_name => m.with_pair tool.name provider_name) := by
  cases tool with
  | Function => rfl
  | Provider id =>
    rw [ToolNameMapping.add,newName]
    cases provider_tool_names id <;> rfl

theorem pairs_append (earlier : List ToolDefinition) (tool : ToolDefinition) :
    pairs provider_tool_names (earlier ++ [tool]) = pairs provider_tool_names earlier ++
      ((newName provider_tool_names tool).map fun provider_name => (tool.name,provider_name)).toList := by
  rw [pairs,filterMap_append,pairs]
  cases named : newName provider_tool_names tool <;> simp [named]

theorem new_eq (tools : List ToolDefinition) : ToolNameMapping.new tools provider_tool_names =
    ⟨collect (pairs provider_tool_names tools),
      collect ((pairs provider_tool_names tools).map fun pair => (pair.2,pair.1))⟩ := by
  induction tools using reverseRecOn with
  | nil => rfl
  | append_singleton earlier tool ih =>
    have step : ToolNameMapping.new (earlier ++ [tool]) provider_tool_names =
        (ToolNameMapping.new earlier provider_tool_names).add provider_tool_names tool := by
      simp only [ToolNameMapping.new,foldl_append,foldl_cons,foldl_nil]
    rw [step,ih,add_eq,pairs_append,map_append]
    cases newName provider_tool_names tool with
    | none => simp
    | some =>
      simp only [Option.map_some,Option.toList_some,Option.elim_some,map_cons,map_nil,collect_append]
      rfl

theorem mem_pairs {name wire : String} : (name,wire) ∈ pairs provider_tool_names tools ↔
    ∃ tool ∈ tools, tool.name = name ∧ newName provider_tool_names tool = some wire := by
  simp only [pairs,mem_filterMap,Option.map_eq_some_iff,Prod.mk.injEq]
  constructor
  · rintro ⟨tool,mem,_,renamed,rfl,rfl⟩
    exact ⟨tool,mem,rfl,renamed⟩
  · rintro ⟨tool,mem,rfl,renamed⟩
    exact ⟨tool,mem,wire,renamed,rfl,rfl⟩

theorem lookup_to_provider {name : String} {found : Option String}
    (here : (ToolNameMapping.new tools provider_tool_names).to_provider.lookup name = found) :
    (∀ wire, found = some wire → ∃ tool ∈ tools, tool.name = name ∧ newName provider_tool_names tool = some wire) ∧
      (found = none → ∀ tool ∈ tools, tool.name = name → newName provider_tool_names tool = none) := by
  rw [new_eq] at here
  subst here
  refine ⟨fun wire same => mem_pairs.mp (mem_of_lookup_collect same),?_⟩
  rintro absent tool mem rfl
  cases renamed : newName provider_tool_names tool with
  | none => rfl
  | some =>
    obtain ⟨_,there⟩ := lookup_collect_of_mem (mem_pairs.mpr ⟨tool,mem,rfl,renamed⟩)
    rw [absent] at there
    cases there

theorem lookup_to_custom {wire : String} {found : Option String}
    (here : (ToolNameMapping.new tools provider_tool_names).to_custom.lookup wire = found) :
    (∀ name, found = some name → ∃ tool ∈ tools, tool.name = name ∧ newName provider_tool_names tool = some wire) ∧
      (found = none → ∀ tool ∈ tools, newName provider_tool_names tool ≠ some wire) := by
  rw [new_eq] at here
  subst here
  constructor
  · intro name same
    obtain ⟨pair,mem,swapped⟩ := List.mem_map.mp (mem_of_lookup_collect same)
    cases swapped
    exact mem_pairs.mp mem
  · intro absent tool mem renamed
    obtain ⟨_,there⟩ := lookup_collect_of_mem
      (mem_map_of_mem (f := fun pair => (pair.2,pair.1)) (mem_pairs.mpr ⟨tool,mem,rfl,renamed⟩))
    rw [absent] at there
    cases there

theorem to_provider_eq (distinct : (tools.map ToolDefinition.name).Nodup) {tool : ToolDefinition} (mem : tool ∈ tools) :
    (ToolNameMapping.new tools provider_tool_names).to_provider_tool_name tool.name =
      wireName provider_tool_names tool := by
  have found := @lookup_to_provider provider_tool_names tools tool.name _ rfl
  rw [ToolNameMapping.to_provider_tool_name,wireName]
  cases here : (ToolNameMapping.new tools provider_tool_names).to_provider.lookup tool.name with
  | none => rw [found.2 here tool mem rfl]
  | some wire =>
    obtain ⟨_,there,same,renamed⟩ := found.1 wire here
    rw [← inj_on_of_nodup_map distinct there mem same,renamed]

theorem to_custom_wireName {tool : ToolDefinition} (mem : tool ∈ tools) :
    ∃ other ∈ tools, wireName provider_tool_names other = wireName provider_tool_names tool ∧
      (ToolNameMapping.new tools provider_tool_names).to_custom_tool_name (wireName provider_tool_names tool) =
        other.name := by
  have found := @lookup_to_custom provider_tool_names tools (wireName provider_tool_names tool) _ rfl
  rw [ToolNameMapping.to_custom_tool_name]
  cases here : (ToolNameMapping.new tools provider_tool_names).to_custom.lookup (wireName provider_tool_names tool) with
  | none =>
    refine ⟨tool,mem,rfl,?_⟩
    cases renamed : newName provider_tool_names tool with
    | none => rw [wireName,renamed]; rfl
    | some =>
      refine absurd ?_ (found.2 here tool mem)
      rw [wireName,renamed]
      rfl
  | some name =>
    obtain ⟨other,there,rfl,renamed⟩ := found.1 name here
    exact ⟨other,there,by rw [wireName,renamed]; rfl,rfl⟩

/-- Names come back, and none is attributed to another tool, exactly when no two tools share a name on the wire. -/
theorem names_return_iff (provider_tool_names : String → Option String) (tools : List ToolDefinition)
    (distinct : (tools.map ToolDefinition.name).Nodup) :
    (∀ tool ∈ tools,
      (ToolNameMapping.new tools provider_tool_names).to_custom_tool_name
        ((ToolNameMapping.new tools provider_tool_names).to_provider_tool_name tool.name) = tool.name ∧
      ∀ other ∈ tools, (ToolNameMapping.new tools provider_tool_names).to_custom_tool_name
        ((ToolNameMapping.new tools provider_tool_names).to_provider_tool_name tool.name) = other.name → other = tool) ↔
      (tools.map (wireName provider_tool_names)).Nodup := by
  rw [nodup_map_iff_inj_on distinct.of_map]
  constructor
  · intro back tool member other there same
    have one := (back tool member).1
    have two := (back other there).1
    rw [to_provider_eq distinct member] at one
    rw [to_provider_eq distinct there,← same] at two
    exact inj_on_of_nodup_map distinct member there (one.symm.trans two)
  · intro injective tool member
    obtain ⟨other,there,same,reported⟩ := @to_custom_wireName provider_tool_names tools tool member
    rw [to_provider_eq distinct member,reported,injective other there tool member same]
    exact ⟨rfl,fun other' there' named => (inj_on_of_nodup_map distinct member there' named).symm⟩

end

def searchNames (id : String) : Option String :=
  if id = "anthropic.web_search_20250305" ∨ id = "anthropic.web_search_20260209" then some "web_search" else none

def searchTools : List ToolDefinition := [.Provider "anthropic.web_search_20250305" "search",.Function "weather"]

theorem names_return_search :
    (ToolNameMapping.new searchTools searchNames).to_custom_tool_name
        ((ToolNameMapping.new searchTools searchNames).to_provider_tool_name "search") = "search" ∧
      (ToolNameMapping.new searchTools searchNames).to_custom_tool_name
        ((ToolNameMapping.new searchTools searchNames).to_provider_tool_name "weather") = "weather" := by
  have back := (names_return_iff searchNames searchTools (by decide)).mpr (by decide)
  exact ⟨(back _ (Mem.head _)).1,(back _ (Mem.tail _ (Mem.head _))).1⟩

/-- A function tool that is called as a provider tool is on the wire comes back as that tool. -/
theorem function_tool_attributed :
    ((ToolNameMapping.new [.Function "web_search",.Provider "anthropic.web_search_20250305" "search"]
      searchNames).to_custom_tool_name ((ToolNameMapping.new [.Function "web_search",
        .Provider "anthropic.web_search_20250305" "search"] searchNames).to_provider_tool_name "web_search")) =
      "search" := by decide

end Ferrin.ToolNames
