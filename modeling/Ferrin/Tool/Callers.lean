import Ferrin.Error
import Ferrin.Library.IndexMap

/-!
Tools that are called by other tools. A provider caller prepares the provider
options of its callees, a local caller is bound to its callees. A callee is
captured where the list of its callers names the local caller, with the options
of that moment, and before any caller is bound (`prepared_for_callers_iff`).
-/
namespace Ferrin.Callers
open Ferrin List

inductive ToolCaller where
  | Direct
  | Tool (name : ToolName)
  deriving DecidableEq

abbrev ToolCallers := List (ToolName × List ToolCaller)

/-- A local caller binds its callees by a function that `β` names, as a tool cannot hold functions on tools. -/
inductive ToolCallerDefinition (β : Type) where
  | Local (bind : β)
  | Provider (prepare : Option ProviderOptions → ProviderOptions)

/-- A tool, as far as callers go; `σ` is all the rest of it. -/
structure Tool (σ β : Type) where
  rest : σ
  provider_options : Option ProviderOptions
  caller_definition : Option (ToolCallerDefinition β)

abbrev ToolSet (σ β : Type) := IndexMap ToolName (Tool σ β)

def Tool.with_provider_options {σ β : Type} (tool : Tool σ β) (options : Option ProviderOptions) : Tool σ β :=
  {tool with provider_options := options}

section
variable {σ β : Type}

variable (tool : Tool σ β)

@[simp] theorem options_of_with (options : Option ProviderOptions) :
    (tool.with_provider_options options).provider_options = options := rfl

@[simp] theorem definition_of_with (options : Option ProviderOptions) :
    (tool.with_provider_options options).caller_definition = tool.caller_definition := rfl

@[simp] theorem with_twice (first second : Option ProviderOptions) :
    (tool.with_provider_options first).with_provider_options second = tool.with_provider_options second := rfl

@[simp] theorem with_own : tool.with_provider_options tool.provider_options = tool := rfl

def definition (tools : ToolSet σ β) (name : ToolName) : Option (ToolCallerDefinition β) :=
  (tools.get name).bind (·.caller_definition)

def is_invalid (tools : ToolSet σ β) : ToolCaller → Bool
  | .Direct => false
  | .Tool caller_name => (definition tools caller_name).isNone

def validate_tool_callers (tools : ToolSet σ β) : ToolCallers → Except Error Unit
  | [] => .ok ()
  | (tool_name,list) :: rest =>
    if tools.contains tool_name = false then
      .error (.InvalidArgument "tool_callers" ("unknown tool \"" ++ tool_name ++ "\"."))
    else if list.any (is_invalid tools) then
      .error (.InvalidArgument "tool_callers" ("tool \"" ++ tool_name ++ "\" contains an invalid caller."))
    else validate_tool_callers tools rest

/-! ### The first pass -/

structure Visit (σ β : Type) where
  direct : Bool
  via_provider : Bool
  prepared : Tool σ β
  local_by_caller : List (ToolName × ToolSet σ β)

def callees (local_by_caller : List (ToolName × ToolSet σ β)) (caller_name : ToolName) : ToolSet σ β :=
  (local_by_caller.lookup caller_name).getD .empty

def visit_caller (execution : ToolSet σ β) (tool_name : ToolName) (v : Visit σ β) : ToolCaller → Visit σ β
  | .Direct => {v with direct := true}
  | .Tool caller_name =>
    match definition execution caller_name with
    | none => v
    | some (.Provider prepare) =>
      {v with
        via_provider := true
        prepared := v.prepared.with_provider_options (some (prepare v.prepared.provider_options))}
    | some (.Local _) =>
      let entry := (callees v.local_by_caller caller_name).insert tool_name v.prepared
      {v with local_by_caller := Assoc.put v.local_by_caller caller_name entry}

structure Preparation (σ β : Type) where
  execution : ToolSet σ β
  model : ToolSet σ β
  local_by_caller : List (ToolName × ToolSet σ β)

def visit_tool (callers : ToolCallers) (p : Preparation σ β) (entry : ToolName × Tool σ β) : Preparation σ β :=
  match callers.lookup entry.1 with
  | none => p
  | some list =>
    let v := list.foldl (visit_caller p.execution entry.1) ⟨false,false,entry.2,p.local_by_caller⟩
    { execution := p.execution.insert entry.1 v.prepared
      model := if v.direct || v.via_provider then p.model.insert entry.1 v.prepared else p.model.shift_remove entry.1
      local_by_caller := v.local_by_caller }

def visit_tools (tools : ToolSet σ β) (callers : ToolCallers) : Preparation σ β :=
  tools.entries.foldl (visit_tool callers) ⟨tools,tools,[]⟩

section
variable (bind : β → ToolSet σ β → Tool σ β)

def bind_caller (p : Preparation σ β) (entry : ToolName × Tool σ β) : Preparation σ β :=
  match entry.2.caller_definition with
  | some (.Local b) =>
    let bound := bind b (callees p.local_by_caller entry.1)
    { execution := p.execution.insert entry.1 bound
      model := if p.model.contains entry.1 then p.model.insert entry.1 bound else p.model
      local_by_caller := Assoc.remove p.local_by_caller entry.1 }
  | _ => p

structure PreparedToolCallers (σ β : Type) where
  execution_tools : ToolSet σ β
  model_tools : ToolSet σ β

def prepare_tools_for_callers (tools : ToolSet σ β) (callers : ToolCallers) : PreparedToolCallers σ β :=
  let first := visit_tools tools callers
  let second := first.execution.entries.foldl (bind_caller bind) first
  ⟨second.execution,second.model⟩

end

section
variable (tools : ToolSet σ β) (callers : ToolCallers)

def callers_of (name : ToolName) : List ToolCaller := (callers.lookup name).getD []

def prepare_one (options : Option ProviderOptions) : ToolCaller → Option ProviderOptions
  | .Direct => options
  | .Tool caller_name =>
    match definition tools caller_name with
    | some (.Provider prepare) => some (prepare options)
    | _ => options

def prepare_all (options : Option ProviderOptions) (list : List ToolCaller) : Option ProviderOptions :=
  list.foldl (prepare_one tools) options

def prepared (name : ToolName) (tool : Tool σ β) : Tool σ β :=
  tool.with_provider_options (prepare_all tools tool.provider_options (callers_of callers name))

def is_provider_caller : ToolCaller → Bool
  | .Direct => false
  | .Tool caller_name => match definition tools caller_name with
    | some (.Provider _) => true
    | _ => false

def has_provider (name : ToolName) : Bool := (callers_of callers name).any (is_provider_caller tools)

def offered (name : ToolName) : Bool :=
  (callers.lookup name).isNone || decide (ToolCaller.Direct ∈ callers_of callers name) || has_provider tools callers name

def calls (caller_name name : ToolName) : Bool := decide (ToolCaller.Tool caller_name ∈ callers_of callers name)

def meant (caller_name : ToolName) : ToolSet σ β where
  entries := (tools.entries.filter fun entry => calls callers caller_name entry.1).map fun entry =>
    (entry.1,prepared tools callers entry.1 entry.2)
  unique := by
    rw [List.map_map]
    exact tools.unique.sublist (List.filter_sublist.map _)

structure Correct (bind : β → ToolSet σ β → Tool σ β) (out : PreparedToolCallers σ β) : Prop where
  names : out.execution_tools.keys = tools.keys
  model : out.model_tools.keys = tools.keys.filter (offered tools callers)
  bound : ∀ caller_name b, definition tools caller_name = some (.Local b) →
    let callees := callees (visit_tools tools callers).local_by_caller caller_name
    out.execution_tools.get caller_name = some (bind b callees) ∧ callees.keys = tools.keys.filter (calls callers caller_name) ∧
      ∀ name tool, tools.get name = some tool → calls callers caller_name name = true →
        ∃ callee, callees.get name = some callee ∧ out.execution_tools.get name = some callee ∧
          callee.provider_options = (prepared tools callers name tool).provider_options
  options : ∀ name tool, tools.get name = some tool → has_provider tools callers name = true →
    ∃ sent, out.model_tools.get name = some sent ∧
      sent.provider_options = (prepared tools callers name tool).provider_options

structure Settled (bind : β → ToolSet σ β → Tool σ β) : Prop where
  late : ∀ name tool caller_name b before after, tools.get name = some tool →
    definition tools caller_name = some (.Local b) →
    callers_of callers name = before ++ .Tool caller_name :: after → ToolCaller.Tool caller_name ∉ after →
    prepare_all tools (prepare_all tools tool.provider_options before) after = prepare_all tools tool.provider_options before
  callee : ∀ name tool caller_name b c, tools.get name = some tool → tool.caller_definition = some (.Local c) →
    definition tools caller_name = some (.Local b) → calls callers caller_name name = true →
    bind c (meant tools callers name) = prepared tools callers name tool
  options : ∀ name tool c, tools.get name = some tool → tool.caller_definition = some (.Local c) →
    has_provider tools callers name = true →
    (bind c (meant tools callers name)).provider_options = (prepared tools callers name tool).provider_options

end

variable {after : List ToolCaller} {name : ToolName}

section
variable {tools execution : ToolSet σ β}

def captured (tools : ToolSet σ β) (caller_name : ToolName) :
    Option ProviderOptions → List ToolCaller → Option (Option ProviderOptions)
  | _, [] => none
  | options, caller :: rest => (captured tools caller_name (prepare_one tools options caller) rest).or
      (if caller = .Tool caller_name then some options else none)

theorem captured_none {caller_name : ToolName} {list : List ToolCaller} (absent : ToolCaller.Tool caller_name ∉ list) :
    ∀ options, captured tools caller_name options list = none := by
  induction list with
  | nil => exact fun _ => rfl
  | cons _ _ ih =>
    intro options
    rw [mem_cons,not_or] at absent
    rw [captured,ih absent.2,if_neg (Ne.symm absent.1)]
    rfl

theorem captured_split {caller_name : ToolName} (last : ToolCaller.Tool caller_name ∉ after)
    (before : List ToolCaller) : ∀ options, captured tools caller_name options (before ++ .Tool caller_name :: after) =
      some (prepare_all tools options before) := by
  induction before with
  | nil =>
    intro options
    rw [nil_append,captured,captured_none last,if_pos rfl]
    rfl
  | cons _ _ ih =>
    intro options
    rw [cons_append,captured,ih]
    rfl

theorem last_place {α : Type} {a : α} {l : List α} (mem : a ∈ l) : ∃ before after, l = before ++ a :: after ∧ a ∉ after := by
  obtain ⟨front,back,same,absent⟩ := eq_append_cons_of_mem (List.mem_reverse.mpr mem)
  refine ⟨back.reverse,front.reverse,?_,by simpa using absent⟩
  rw [← reverse_reverse l,same]
  simp

theorem prepare_split {caller_name : ToolName} {b : β} (isLocal : definition tools caller_name = some (.Local b))
    (options : Option ProviderOptions) (before after : List ToolCaller) :
    prepare_all tools options (before ++ .Tool caller_name :: after) =
      prepare_all tools (prepare_all tools options before) after := by
  have skip (options) : prepare_one tools options (.Tool caller_name) = options := by simp [prepare_one,isLocal]
  rw [prepare_all,foldl_append,foldl_cons,skip]
  rfl

structure Visited (tools : ToolSet σ β) (name : ToolName) (list : List ToolCaller) (v after : Visit σ β) : Prop where
  direct : after.direct = (v.direct || decide (ToolCaller.Direct ∈ list))
  via_provider : after.via_provider = (v.via_provider || list.any (is_provider_caller tools))
  prepared : after.prepared = v.prepared.with_provider_options (prepare_all tools v.prepared.provider_options list)
  callees : ∀ caller_name b, definition tools caller_name = some (.Local b) →
    callees after.local_by_caller caller_name = match captured tools caller_name v.prepared.provider_options list with
      | none => callees v.local_by_caller caller_name
      | some options => (callees v.local_by_caller caller_name).insert name (v.prepared.with_provider_options options)

theorem callees_put (map : List (ToolName × ToolSet σ β)) (key : ToolName) (set : ToolSet σ β) (name : ToolName) :
    callees (Assoc.put map key set) name = if name = key then set else callees map name := by
  rw [callees,Assoc.lookup_put]
  split_ifs <;> rfl

theorem visited_one (same : ∀ name, definition execution name = definition tools name) (name : ToolName) (v : Visit σ β)
    (caller : ToolCaller) : Visited tools name [caller] v (visit_caller execution name v caller) := by
  cases caller with
  | Direct => exact ⟨by simp [visit_caller],by simp [visit_caller,is_provider_caller],rfl,fun _ _ _ => by simp [visit_caller,captured]⟩
  | Tool caller_name =>
    have differs {other : ToolName} {b : β} (isLocal : definition tools other = some (.Local b))
        (noLocal : definition tools caller_name ≠ some (.Local b)) : caller_name ≠ other := by
      rintro rfl
      exact noLocal isLocal
    cases known : definition tools caller_name with
    | none =>
      have skip : visit_caller execution name v (.Tool caller_name) = v := by simp [visit_caller,same,known]
      rw [skip]
      refine ⟨by simp,by simp [is_provider_caller,known],by simp [prepare_all,prepare_one,known],fun other b isLocal => ?_⟩
      simp [captured,differs isLocal (by simp [known])]
    | some found =>
      cases found with
      | Provider =>
        refine ⟨by simp [visit_caller,same,known],by simp [visit_caller,same,known,is_provider_caller],
          by simp [visit_caller,same,known,prepare_all,prepare_one],fun other b isLocal => ?_⟩
        simp [visit_caller,same,known,captured,differs isLocal (by simp [known])]
      | Local b =>
        refine ⟨by simp [visit_caller,same,known],by simp [visit_caller,same,known,is_provider_caller],
          by simp [visit_caller,same,known,prepare_all,prepare_one],fun other b isLocal => ?_⟩
        by_cases here : other = caller_name
        · subst here
          simp [visit_caller,same,known,captured,callees_put]
        · simp [visit_caller,same,known,captured,callees_put,here,Ne.symm here]

theorem Visited.cons {caller : ToolCaller} {rest : List ToolCaller} {v w after : Visit σ β}
    (first : Visited tools name [caller] v w) (later : Visited tools name rest w after) :
    Visited tools name (caller :: rest) v after := by
  have options : w.prepared.provider_options = prepare_one tools v.prepared.provider_options caller := by
    rw [first.prepared]
    rfl
  refine ⟨?_,?_,?_,fun caller_name b isLocal => ?_⟩
  · rw [later.direct,first.direct]
    simp [Bool.or_assoc]
  · rw [later.via_provider,first.via_provider]
    simp [Bool.or_assoc]
  · rw [later.prepared,options,first.prepared]
    rfl
  · rw [later.callees _ _ isLocal,first.callees _ _ isLocal,options,first.prepared]
    simp only [captured]
    by_cases named : caller = .Tool caller_name
    · cases captured tools caller_name (prepare_one tools v.prepared.provider_options caller) rest <;>
        simp [named,IndexMap.insert_insert]
    · cases captured tools caller_name (prepare_one tools v.prepared.provider_options caller) rest <;> simp [named]

theorem visited_callers (same : ∀ name, definition execution name = definition tools name) (name : ToolName)
    (list : List ToolCaller) : ∀ v, Visited tools name list v (list.foldl (visit_caller execution name) v) := by
  induction list with
  | nil => exact fun v => ⟨by simp,by simp,rfl,fun _ _ _ => rfl⟩
  | cons caller _ ih => exact fun v => (visited_one same name v caller).cons (ih _)

end

/-! ### The first pass over a tool set -/

section
variable {tools : ToolSet σ β} {callers : ToolCallers}

def preparedEntry (tools : ToolSet σ β) (callers : ToolCallers) (entry : ToolName × Tool σ β) : ToolName × Tool σ β :=
  (entry.1,prepared tools callers entry.1 entry.2)

def capturedEntry (tools : ToolSet σ β) (callers : ToolCallers) (caller_name : ToolName) (entry : ToolName × Tool σ β) :
    Option (ToolName × Tool σ β) :=
  (captured tools caller_name entry.2.provider_options (callers_of callers entry.1)).map fun options =>
    (entry.1,entry.2.with_provider_options options)

structure Gathered (tools : ToolSet σ β) (callers : ToolCallers) (visited rest : List (ToolName × Tool σ β))
    (p : Preparation σ β) : Prop where
  execution : p.execution.entries = visited.map (preparedEntry tools callers) ++ rest
  model : p.model.entries = (visited.filter fun entry => offered tools callers entry.1).map (preparedEntry tools callers) ++ rest
  callees : ∀ caller_name b, definition tools caller_name = some (.Local b) →
    (callees p.local_by_caller caller_name).entries = visited.filterMap (capturedEntry tools callers caller_name)

variable (entries : List (ToolName × Tool σ β))

theorem keys_prepared :
    (entries.map (preparedEntry tools callers)).map (·.1) = entries.map (·.1) := by
  rw [map_map]
  rfl

theorem lookup_prepared (name : ToolName) :
    (entries.map (preparedEntry tools callers)).lookup name = (entries.lookup name).map (prepared tools callers name) := by
  induction entries with
  | nil => rfl
  | cons entry _ ih =>
    rw [map_cons,lookup_cons,lookup_cons,ih]
    by_cases here : name = entry.1
    · simp [here,preparedEntry]
    · simp [preparedEntry,beq_eq_false_iff_ne.mpr here]

theorem capturedEntry_keys {caller_name : ToolName} {key : ToolName}
    (mem : key ∈ (entries.filterMap (capturedEntry tools callers caller_name)).map (·.1)) : key ∈ entries.map (·.1) := by
  obtain ⟨_,inside,rfl⟩ := List.mem_map.mp mem
  obtain ⟨source,known,same⟩ := List.mem_filterMap.mp inside
  obtain ⟨_,-,rfl⟩ := Option.map_eq_some_iff.mp same
  exact List.mem_map.mpr ⟨source,known,rfl⟩

variable {visited rest : List (ToolName × Tool σ β)}

theorem definition_gathered {p : Preparation σ β}
    (gathered : Gathered tools callers visited rest p) (whole : visited ++ rest = tools.entries) (name : ToolName) :
    definition p.execution name = definition tools name := by
  rw [definition,definition,IndexMap.get,IndexMap.get,gathered.execution,← whole,lookup_append,lookup_append,
    lookup_prepared]
  cases visited.lookup name <;> rfl

theorem gathered_step {entry : ToolName × Tool σ β} {p : Preparation σ β}
    (gathered : Gathered tools callers visited (entry :: rest) p) (whole : visited ++ entry :: rest = tools.entries) :
    Gathered tools callers (visited ++ [entry]) rest (visit_tool callers p entry) := by
  obtain ⟨name,tool⟩ := entry
  have unique := tools.unique
  rw [← whole,map_append,map_cons,nodup_middle,nodup_cons,mem_append,not_or] at unique
  obtain ⟨⟨fresh,absent⟩,-⟩ := unique
  have front : name ∉ (visited.map (preparedEntry tools callers)).map (·.1) := by rwa [keys_prepared]
  have model_front : name ∉ ((visited.filter fun entry => offered tools callers entry.1).map
      (preparedEntry tools callers)).map (·.1) := by
    rw [keys_prepared]
    exact fun mem => fresh ((List.filter_sublist.map _).subset mem)
  cases listed : callers.lookup name with
  | none =>
    have callers_none : callers_of callers name = [] := by rw [callers_of,listed]; rfl
    have itself : preparedEntry tools callers (name,tool) = (name,tool) := by
      simp [preparedEntry,prepared,callers_none,prepare_all]
    have stays : visit_tool callers p (name,tool) = p := by simp [visit_tool,listed]
    rw [stays]
    refine ⟨?_,?_,fun caller_name b isLocal => ?_⟩
    · rw [gathered.execution]
      simp [itself]
    · rw [gathered.model]
      simp [offered,listed,itself]
    · rw [gathered.callees _ _ isLocal]
      simp [capturedEntry,callers_none,captured]
  | some list =>
    have callers_some : callers_of callers name = list := by rw [callers_of,listed]; rfl
    have visit := visited_callers (definition_gathered gathered whole) name list ⟨false,false,tool,p.local_by_caller⟩
    have turned : (list.foldl (visit_caller p.execution name) ⟨false,false,tool,p.local_by_caller⟩).prepared =
        prepared tools callers name tool := by
      rw [visit.prepared,prepared,callers_some]
    have counts : ((list.foldl (visit_caller p.execution name) ⟨false,false,tool,p.local_by_caller⟩).direct ||
        (list.foldl (visit_caller p.execution name) ⟨false,false,tool,p.local_by_caller⟩).via_provider) =
          offered tools callers name := by
      rw [visit.direct,visit.via_provider,offered,has_provider,listed,callers_some]
      simp
    simp only [visit_tool,listed,turned,counts]
    refine ⟨?_,?_,fun caller_name b isLocal => ?_⟩
    · rw [IndexMap.insert_entries,gathered.execution,IndexMap.insertEntry_middle front]
      simp [preparedEntry]
    · cases counted : offered tools callers name with
      | true =>
        rw [if_pos rfl,IndexMap.insert_entries,gathered.model,IndexMap.insertEntry_middle model_front]
        simp [preparedEntry,counted]
      | false =>
        rw [if_neg (by simp),IndexMap.shift_remove_entries,gathered.model,IndexMap.remove_middle model_front absent]
        simp [counted]
    · rw [visit.callees _ _ isLocal,filterMap_append,filterMap_cons]
      have known := gathered.callees _ _ isLocal
      rw [capturedEntry,callers_some]
      cases captured tools caller_name tool.provider_options list with
      | none => simp [known]
      | some =>
        have new : name ∉ (callees p.local_by_caller caller_name).entries.map (·.1) := by
          rw [known]
          exact fun mem => fresh (capturedEntry_keys visited mem)
        rw [IndexMap.insert_entries,IndexMap.insertEntry_fresh new,known]
        rfl

theorem gathered_all (rest : List (ToolName × Tool σ β)) : ∀ visited p, Gathered tools callers visited rest p →
    visited ++ rest = tools.entries → Gathered tools callers tools.entries [] (rest.foldl (visit_tool callers) p) := by
  induction rest with
  | nil =>
    intro visited p gathered whole
    rw [append_nil] at whole
    exact whole ▸ gathered
  | cons _ _ ih =>
    intro visited p gathered whole
    exact ih _ _ (gathered_step gathered whole) (by simpa using whole)

theorem visit_tools_gathered (tools : ToolSet σ β) (callers : ToolCallers) :
    Gathered tools callers tools.entries [] (visit_tools tools callers) :=
  gathered_all tools.entries [] _ ⟨rfl,rfl,fun _ _ _ => rfl⟩ rfl

end

section
variable {bind : β → ToolSet σ β → Tool σ β}

/-- What the second pass reads and writes of one name. -/
def seen (p : Preparation σ β) (name : ToolName) : Option (Tool σ β) × Option (Tool σ β) × ToolSet σ β :=
  (p.execution.get name,p.model.get name,callees p.local_by_caller name)

def boundTool (bind : β → ToolSet σ β → Tool σ β) (tool : Tool σ β) (callees : ToolSet σ β) : Tool σ β :=
  match tool.caller_definition with
  | some (.Local b) => bind b callees
  | _ => tool

def change (bind : β → ToolSet σ β → Tool σ β) (entry : ToolName × Tool σ β)
    (before : Option (Tool σ β) × Option (Tool σ β) × ToolSet σ β) : Option (Tool σ β) × Option (Tool σ β) × ToolSet σ β :=
  match entry.2.caller_definition with
  | some (.Local b) => (some (bind b before.2.2),before.2.1.map fun _ => bind b before.2.2,.empty)
  | _ => before

theorem seen_bind_caller (p : Preparation σ β) (entry : ToolName × Tool σ β) (name : ToolName) :
    seen (bind_caller bind p entry) name = if name = entry.1 then change bind entry (seen p name) else seen p name := by
  obtain ⟨caller_name,tool⟩ := entry
  cases defined : tool.caller_definition with
  | none => simp [bind_caller,change,defined]
  | some found =>
    cases found with
    | Provider => simp [bind_caller,change,defined]
    | Local =>
      simp only [bind_caller,change,defined,seen,IndexMap.get_insert]
      have removed : callees (Assoc.remove p.local_by_caller caller_name) name =
          if name = caller_name then .empty else callees p.local_by_caller name := by
        rw [callees,Assoc.lookup_remove]
        split_ifs <;> rfl
      rw [removed]
      by_cases known : p.model.contains caller_name = true
      · rw [if_pos known,IndexMap.get_insert]
        by_cases here : name = caller_name
        · subst here
          obtain ⟨_,found⟩ := Option.isSome_iff_exists.mp known
          simp [found]
        · simp [here]
      · rw [if_neg known]
        by_cases here : name = caller_name
        · subst here
          have absent : p.model.get name = none := by simpa [IndexMap.contains] using known
          simp [absent]
        · simp [here]

theorem keys_bind_caller {p : Preparation σ β} {entry : ToolName × Tool σ β} (known : entry.1 ∈ p.execution.keys) :
    (bind_caller bind p entry).execution.keys = p.execution.keys ∧ (bind_caller bind p entry).model.keys = p.model.keys := by
  unfold bind_caller
  split
  · refine ⟨p.execution.keys_insert known,?_⟩
    by_cases sent : p.model.contains entry.1 = true
    · simp only [if_pos sent]
      exact p.model.keys_insert (p.model.contains_iff.mp sent)
    · simp only [if_neg sent]
  · exact ⟨rfl,rfl⟩

theorem keys_bind_all (entries : List (ToolName × Tool σ β)) : ∀ p : Preparation σ β,
    (∀ entry ∈ entries, entry.1 ∈ p.execution.keys) →
    (entries.foldl (bind_caller bind) p).execution.keys = p.execution.keys ∧
      (entries.foldl (bind_caller bind) p).model.keys = p.model.keys := by
  induction entries with
  | nil => exact fun _ _ => ⟨rfl,rfl⟩
  | cons entry _ ih =>
    intro p known
    obtain ⟨execution,model⟩ := @keys_bind_caller σ β bind p entry (known entry mem_cons_self)
    have later := ih (bind_caller bind p entry) fun other mem => execution ▸ known other (mem_cons_of_mem _ mem)
    exact ⟨later.1.trans execution,later.2.trans model⟩

end

section
variable {bind : β → ToolSet σ β → Tool σ β} {tools : ToolSet σ β} {callers : ToolCallers}

theorem execution_keys (tools : ToolSet σ β) (callers : ToolCallers) : (visit_tools tools callers).execution.keys = tools.keys := by
  rw [IndexMap.keys,(visit_tools_gathered tools callers).execution,append_nil,keys_prepared]
  rfl

theorem model_keys (tools : ToolSet σ β) (callers : ToolCallers) :
    (visit_tools tools callers).model.keys = tools.keys.filter (offered tools callers) := by
  rw [IndexMap.keys,(visit_tools_gathered tools callers).model,append_nil,keys_prepared,IndexMap.keys,filter_map]
  rfl

theorem out_keys (bind : β → ToolSet σ β → Tool σ β) (tools : ToolSet σ β) (callers : ToolCallers) :
    (prepare_tools_for_callers bind tools callers).execution_tools.keys = tools.keys ∧
      (prepare_tools_for_callers bind tools callers).model_tools.keys = tools.keys.filter (offered tools callers) := by
  obtain ⟨execution,model⟩ := @keys_bind_all σ β bind (visit_tools tools callers).execution.entries
    (visit_tools tools callers) fun entry mem => List.mem_map.mpr ⟨entry,mem,rfl⟩
  exact ⟨execution.trans (execution_keys tools callers),model.trans (model_keys tools callers)⟩

theorem get_execution (name : ToolName) :
    (visit_tools tools callers).execution.get name = (tools.get name).map (prepared tools callers name) := by
  rw [IndexMap.get,(visit_tools_gathered tools callers).execution,append_nil,lookup_prepared]
  rfl

/-- A tool that the model gets or not, after both passes. -/
def final (bind : β → ToolSet σ β → Tool σ β) (tools : ToolSet σ β) (callers : ToolCallers) (name : ToolName)
    (tool : Tool σ β) : Tool σ β :=
  boundTool bind (prepared tools callers name tool) (callees (visit_tools tools callers).local_by_caller name)

theorem out_get {tool : Tool σ β} (known : tools.get name = some tool) :
    (prepare_tools_for_callers bind tools callers).execution_tools.get name = some (final bind tools callers name tool) ∧
      (prepare_tools_for_callers bind tools callers).model_tools.get name =
        if offered tools callers name then some (final bind tools callers name tool) else none := by
  have first : (visit_tools tools callers).execution.get name = some (prepared tools callers name tool) := by
    rw [get_execution,known]
    rfl
  have sent : (visit_tools tools callers).model.get name =
      if offered tools callers name then some (prepared tools callers name tool) else none := by
    cases counts : offered tools callers name with
    | true =>
      refine IndexMap.get_eq_some _ |>.mpr ?_
      rw [(visit_tools_gathered tools callers).model,append_nil]
      exact List.mem_map.mpr ⟨_,List.mem_filter.mpr ⟨(IndexMap.get_eq_some _).mp known,counts⟩,rfl⟩
    | false =>
      rw [if_neg (by simp),← Option.not_isSome_iff_eq_none]
      intro present
      have mem := (IndexMap.contains_iff _).mp present
      rw [model_keys,mem_filter,counts] at mem
      exact absurd mem.2 (by simp)
  have whole := IndexMap.foldl_at (@seen_bind_caller σ β bind) (visit_tools tools callers).execution.entries
    (visit_tools tools callers) name (visit_tools tools callers).execution.unique
  rw [← IndexMap.get,first] at whole
  simp only [seen,first,sent,change] at whole
  rw [final,boundTool]
  cases defined : (prepared tools callers name tool).caller_definition with
  | none =>
    rw [defined] at whole
    exact ⟨congrArg Prod.fst whole,congrArg (·.2.1) whole⟩
  | some found =>
    rw [defined] at whole
    cases found with
    | Provider => exact ⟨congrArg Prod.fst whole,congrArg (·.2.1) whole⟩
    | Local =>
      refine ⟨congrArg Prod.fst whole,(congrArg (·.2.1) whole).trans ?_⟩
      cases offered tools callers name <;> rfl

theorem definition_eq_some {found : ToolCallerDefinition β} :
    definition tools name = some found ↔ ∃ tool, tools.get name = some tool ∧ tool.caller_definition = some found :=
  Option.bind_eq_some_iff

/-! ### The callees of a local caller -/

theorem captured_isSome {caller_name : ToolName} {list : List ToolCaller} (options : Option ProviderOptions) :
    (captured tools caller_name options list).isSome = decide (ToolCaller.Tool caller_name ∈ list) := by
  by_cases named : ToolCaller.Tool caller_name ∈ list
  · obtain ⟨_,_,rfl,last⟩ := last_place named
    simp [captured_split last]
  · simp [captured_none named,named]

theorem keys_captured (caller_name : ToolName) (entries : List (ToolName × Tool σ β)) :
    (entries.filterMap (capturedEntry tools callers caller_name)).map (·.1) =
      (entries.map (·.1)).filter (calls callers caller_name) := by
  induction entries with
  | nil => rfl
  | cons entry _ ih =>
    have named := @captured_isSome σ β tools caller_name (callers_of callers entry.1) entry.2.provider_options
    rw [filterMap_cons,capturedEntry,map_cons,filter_cons,calls,← named]
    cases captured tools caller_name entry.2.provider_options (callers_of callers entry.1) with
    | none => simpa using ih
    | some => simpa using ih

variable {caller_name name : ToolName} {b : β} {tool : Tool σ β}

section
variable (isLocal : definition tools caller_name = some (.Local b))
include isLocal

theorem callees_keys :
    (callees (visit_tools tools callers).local_by_caller caller_name).keys = tools.keys.filter (calls callers caller_name) := by
  rw [IndexMap.keys,(visit_tools_gathered tools callers).callees _ _ isLocal,keys_captured]
  rfl

theorem callees_get (known : tools.get name = some tool)
    {options : Option ProviderOptions}
    (found : captured tools caller_name tool.provider_options (callers_of callers name) = some options) :
    (callees (visit_tools tools callers).local_by_caller caller_name).get name = some (tool.with_provider_options options) := by
  refine (IndexMap.get_eq_some _).mpr ?_
  rw [(visit_tools_gathered tools callers).callees _ _ isLocal]
  exact List.mem_filterMap.mpr ⟨(name,tool),(IndexMap.get_eq_some _).mp known,by rw [capturedEntry,found]; rfl⟩

theorem callees_meant
    (late : ∀ name tool, tools.get name = some tool → calls callers caller_name name = true →
      captured tools caller_name tool.provider_options (callers_of callers name) =
        some (prepare_all tools tool.provider_options (callers_of callers name))) :
    callees (visit_tools tools callers).local_by_caller caller_name = meant tools callers caller_name := by
  refine IndexMap.ext ?_
  rw [(visit_tools_gathered tools callers).callees _ _ isLocal]
  simp only [meant]
  have all : ∀ entry ∈ tools.entries, calls callers caller_name entry.1 = true →
      captured tools caller_name entry.2.provider_options (callers_of callers entry.1) =
        some (prepare_all tools entry.2.provider_options (callers_of callers entry.1)) :=
    fun entry mem => late entry.1 entry.2 ((IndexMap.get_eq_some _).mpr mem)
  generalize tools.entries = entries at all ⊢
  induction entries with
  | nil => rfl
  | cons entry _ ih =>
    rw [forall_mem_cons] at all
    rw [filterMap_cons,filter_cons,ih all.2,capturedEntry]
    by_cases named : calls callers caller_name entry.1 = true
    · rw [all.1 named,if_pos named]
      rfl
    · have absent : captured tools caller_name entry.2.provider_options (callers_of callers entry.1) = none :=
        captured_none (by simpa [calls] using named) _
      rw [absent,if_neg named]
      rfl

theorem captured_late (options : Option ProviderOptions)
    {before : List ToolCaller} (last : ToolCaller.Tool caller_name ∉ after) :
    captured tools caller_name options (before ++ .Tool caller_name :: after) =
        some (prepare_all tools options (before ++ .Tool caller_name :: after)) ↔
      prepare_all tools (prepare_all tools options before) after = prepare_all tools options before := by
  rw [captured_split last,prepare_split isLocal,Option.some_inj]
  exact eq_comm

end

end

def CapturedWhole (tools : ToolSet σ β) (callers : ToolCallers) : Prop :=
  ∀ name tool caller_name b, tools.get name = some tool → definition tools caller_name = some (.Local b) →
    calls callers caller_name name = true →
    captured tools caller_name tool.provider_options (callers_of callers name) =
      some (prepare_all tools tool.provider_options (callers_of callers name))

/-- For every binding, tool set and configuration. -/
theorem prepared_for_callers_iff (bind : β → ToolSet σ β → Tool σ β) (tools : ToolSet σ β) (callers : ToolCallers) :
    Correct tools callers bind (prepare_tools_for_callers bind tools callers) ↔ Settled tools callers bind := by
  -- this holds on both sides
  have meant_of (late : CapturedWhole tools callers) {name : ToolName} {c : β}
      (isLocal : definition tools name = some (.Local c)) :
      callees (visit_tools tools callers).local_by_caller name = meant tools callers name :=
    callees_meant isLocal fun other tool known => late other tool name c known isLocal
  have final_local {name : ToolName} {tool : Tool σ β} {c : β} (isLocal : tool.caller_definition = some (.Local c)) :
      final bind tools callers name tool = bind c (callees (visit_tools tools callers).local_by_caller name) := by
    simp [final,boundTool,prepared,isLocal]
  have final_other {name : ToolName} {tool : Tool σ β} (other : ¬ ∃ c, tool.caller_definition = some (.Local c)) :
      final bind tools callers name tool = prepared tools callers name tool := by
    rw [final,boundTool]
    split
    · next c defined => exact absurd ⟨c,defined⟩ other
    · rfl
  constructor
  · intro correct
    have late : CapturedWhole tools callers := by
      intro name tool caller_name b known isLocal named
      obtain ⟨callee,found,-,options⟩ := (correct.bound _ _ isLocal).2.2 name tool known named
      obtain ⟨taken,capture⟩ := Option.isSome_iff_exists.mp ((@captured_isSome σ β tools caller_name _
        tool.provider_options).trans named)
      rw [callees_get isLocal known capture] at found
      cases found
      rw [capture]
      exact congrArg some options
    refine ⟨?_,?_,?_⟩
    · intro name tool caller_name b before after known isLocal split last
      have named : calls callers caller_name name = true := by simp [calls,split]
      have all := late name tool caller_name b known isLocal named
      rw [split] at all
      exact (captured_late isLocal _ last).mp all
    · intro name tool caller_name b c known isLocal caller named
      obtain ⟨callee,found,executed,options⟩ := (correct.bound _ _ caller).2.2 name tool known named
      rw [callees_get caller known (late name tool caller_name b known caller named)] at found
      rw [(out_get known).1,final_local isLocal,meant_of late (definition_eq_some.mpr ⟨tool,known,isLocal⟩)] at executed
      cases found
      exact Option.some.inj executed
    · intro name tool c known isLocal provider
      obtain ⟨sent,found,options⟩ := correct.options name tool known provider
      have counts : offered tools callers name = true := by simp [offered,provider]
      rw [(out_get known).2,if_pos counts,final_local isLocal,
        meant_of late (definition_eq_some.mpr ⟨tool,known,isLocal⟩)] at found
      cases found
      exact options
  · intro settled
    have late : CapturedWhole tools callers := by
      intro name tool caller_name b known isLocal named
      obtain ⟨before,after,split,last⟩ := last_place (of_decide_eq_true named)
      rw [split]
      exact (captured_late isLocal _ last).mpr (settled.late name tool caller_name b before after known isLocal split last)
    refine ⟨(out_keys bind tools callers).1,(out_keys bind tools callers).2,?_,?_⟩
    · intro caller_name b isLocal
      obtain ⟨caller,present,defined⟩ := definition_eq_some.mp isLocal
      refine ⟨?_,callees_keys isLocal,fun name tool known named => ?_⟩
      · rw [(out_get present).1,final_local defined]
      · refine ⟨_,callees_get isLocal known (late name tool caller_name b known isLocal named),?_,rfl⟩
        rw [(out_get known).1]
        by_cases callerToo : ∃ c, tool.caller_definition = some (.Local c)
        · obtain ⟨c,itself⟩ := callerToo
          rw [final_local itself,meant_of late (definition_eq_some.mpr ⟨tool,known,itself⟩),
            settled.callee name tool caller_name b c known itself isLocal named]
          rfl
        · rw [final_other callerToo]
          rfl
    · intro name tool known provider
      have counts : offered tools callers name = true := by simp [offered,provider]
      refine ⟨_,(out_get known).2.trans (if_pos counts),?_⟩
      by_cases callerToo : ∃ c, tool.caller_definition = some (.Local c)
      · obtain ⟨c,itself⟩ := callerToo
        rw [final_local itself,meant_of late (definition_eq_some.mpr ⟨tool,known,itself⟩)]
        exact settled.options name tool c known itself provider
      · rw [final_other callerToo]

end

def codeTools : ToolSet String Unit where
  entries := [("weather",⟨"weather",none,none⟩),("code",⟨"code",none,some (.Local ())⟩),
    ("remote",⟨"remote",none,some (.Provider fun _ => [("openai",[("allowedCallers",.bool true)])])⟩)]
  unique := by decide

def bindCode (_ : Unit) (_ : ToolSet String Unit) : Tool String Unit := ⟨"code",none,some (.Local ())⟩

def localFirst : ToolCallers := [("weather",[.Tool "code",.Tool "remote"])]

/-- The local caller is bound to the tool without the options that the provider caller prepares. -/
theorem captured_too_early : validate_tool_callers codeTools localFirst = .ok () ∧
    ¬ Correct codeTools localFirst bindCode (prepare_tools_for_callers bindCode codeTools localFirst) := by
  refine ⟨rfl,fun correct => ?_⟩
  obtain ⟨callee,found,-,options⟩ := (correct.bound "code" () rfl).2.2 "weather" ⟨"weather",none,none⟩ rfl rfl
  cases found
  cases options

end Ferrin.Callers
