import Ferrin.OpenAiCompatible.ChatStream
import Ferrin.Library.Result
import Mathlib.Data.List.Pairwise

/-!
How tool calls are assembled from their deltas. Calls of which each fragment
carries the index of the call come out whole when their ids are distinct and
known with the name. Without an index only a single call comes out whole: a new
id without an index counts as a fragment of the latest call.
-/
namespace Ferrin.OpenAiCompatible
open Ferrin.Stream Ferrin.Assoc List ToolCallTracker
open Option (filter_eq_some_iff filter_some_pos isSome_iff_exists some)
open String (join join_append join_cons join_nil)

section
variable {κ : Type} [DecidableEq κ]

def own (fragments : List (κ × ChatToolCall)) (call : κ) : List ChatToolCall :=
  (fragments.filter (·.1 = call)).map (·.2)

/-- What tells the calls apart: an index of its own in each fragment, or without
    any index a non-empty id of its own. -/
inductive Carrier (κ : Type) where
  | Index (index : κ → Nat)
  | Id (id : κ → String)

def Carrier.carried : Carrier κ → List (κ × ChatToolCall) → Prop
  | .Index index, fragments => Function.Injective index ∧ ∀ fragment ∈ fragments, fragment.2.index = some (index fragment.1)
  | .Id id, fragments => Function.Injective id ∧ ∀ fragment ∈ fragments,
    fragment.2.index = none ∧ fragment.2.id = some (id fragment.1) ∧ id fragment.1 ≠ ""

end

def carriedId (fragment : ChatToolCall) : Option String := fragment.id.filter (· ≠ "")

def idOf (fragments : List ChatToolCall) : Option String := fragments.findSome? carriedId

def nameOf (fragments : List ChatToolCall) : Option String := fragments.findSome? ChatToolCall.name

def argumentsOf (fragments : List ChatToolCall) : String := join (fragments.map fun fragment => fragment.arguments.getD "")

structure OneCall (fragments : List ChatToolCall) : Prop where
  named : (fragments.filter (·.name.isSome)).length = 1
  identified : ∀ fragment ∈ fragments, ∀ id, carriedId fragment = some id → idOf fragments = some id

structure MadeOf (fragments : List ChatToolCall) (call : ToolCall) : Prop where
  id : ∀ id, idOf fragments = some id → call.tool_call_id = id
  name : nameOf fragments = some call.tool_name
  arguments : call.input = argumentsOf fragments

def toolCallOf : StreamPart → Option ToolCall
  | .ToolCall call => some call
  | _ => none

namespace ToolCallTracker

def rounds (generate_id : Nat → String) (key : String) (deltas : List ChatToolCall) : ToolCallTracker × List StreamPart :=
  ChatStreamState.collect (fun (t : ToolCallTracker) delta => t.process generate_id key delta) .empty deltas

def emitted (generate_id : Nat → String) (key : String) (deltas : List ChatToolCall) : List StreamPart :=
  (rounds generate_id key deltas).2 ++ (rounds generate_id key deltas).1.flush key

end ToolCallTracker

def Assembles {κ : Type} [DecidableEq κ] (fragments : List (κ × ChatToolCall)) (parts : List StreamPart) : Prop :=
  ∃ order : List κ, order.Nodup ∧ (∀ call, call ∈ order ↔ call ∈ fragments.map (·.1)) ∧
    List.Forall₂ (fun call emitted => MadeOf (own fragments call) emitted) order (parts.filterMap toolCallOf)

def untilName (fragments : List ChatToolCall) : List ChatToolCall :=
  fragments.takeWhile (·.name.isNone) ++ (fragments.dropWhile (·.name.isNone)).take 1

def idAtName (fragments : List ChatToolCall) : Option String :=
  ((untilName fragments).findSome? (·.id)).filter (· ≠ "")

/-- When the tracker assembles the calls. With indices the ids of the calls are
    distinct and known with the name; without, there is one call, and no arguments
    come before its name. -/
def Carrier.assembled {κ : Type} [DecidableEq κ] : Carrier κ → List (κ × ChatToolCall) → Prop
  | .Index _, fragments => (∀ fragment ∈ fragments, idAtName (own fragments fragment.1) = idOf (own fragments fragment.1)) ∧
    ∀ first ∈ fragments, ∀ second ∈ fragments, idOf (own fragments first.1) = idOf (own fragments second.1) →
      idOf (own fragments first.1) = none ∨ first.1 = second.1
  | .Id _, fragments => (∀ first ∈ fragments, ∀ second ∈ fragments, first.1 = second.1) ∧
    ∀ fragment ∈ fragments.takeWhile (·.2.name.isNone), fragment.2.arguments.getD "" = ""

variable {κ : Type} {delta : ChatToolCall} {fragments : List ChatToolCall}

theorem own_snoc [DecidableEq κ] (fragments : List (κ × ChatToolCall)) (call other : κ) (delta : ChatToolCall) :
    own (fragments ++ [(call,delta)]) other = if call = other then own fragments other ++ [delta] else own fragments other := by
  unfold own
  by_cases same : call = other
  · simp [same]
  · simp [same]

theorem mem_own [DecidableEq κ] {fragments : List (κ × ChatToolCall)} {call : κ} :
    delta ∈ own fragments call ↔ (call,delta) ∈ fragments := by
  simp [own]

theorem argumentsOf_snoc (fragments : List ChatToolCall) (delta : ChatToolCall) :
    argumentsOf (fragments ++ [delta]) = argumentsOf fragments ++ delta.arguments.getD "" := by
  rw [argumentsOf,map_append,join_append]
  simp [argumentsOf,join_cons,join_nil]

def Named (fragments : List ChatToolCall) : Prop := ∃ delta ∈ fragments, delta.name.isSome

theorem named_snoc : Named (fragments ++ [delta]) ↔ Named fragments ∨ delta.name.isSome := by
  simp [Named,or_and_right,exists_or]

theorem untilName_of_named (named : Named fragments) (more : List ChatToolCall) :
    untilName (fragments ++ more) = untilName fragments := by
  induction fragments with
  | nil =>
    obtain ⟨delta,mem,_⟩ := named
    cases mem
  | cons first rest ih =>
    cases name : first.name with
    | some => simp [untilName,name]
    | none =>
      have later : Named rest := by
        obtain ⟨delta,mem,here⟩ := named
        rcases List.mem_cons.mp mem with rfl | inside
        · simp [name] at here
        · exact ⟨delta,inside,here⟩
      simpa [untilName,name] using ih later

theorem untilName_of_unnamed (unnamed : ¬ Named fragments) (delta : ChatToolCall) :
    untilName (fragments ++ [delta]) = fragments ++ [delta] := by
  induction fragments with
  | nil => cases name : delta.name <;> simp [untilName,name]
  | cons first rest ih =>
    have here : first.name = none := by
      cases name : first.name with
      | none => rfl
      | some => exact absurd ⟨first,mem_cons_self,by simp [name]⟩ unnamed
    have later : ¬ Named rest := fun ⟨other,mem,name⟩ => unnamed ⟨other,mem_cons_of_mem _ mem,name⟩
    simpa [untilName,here] using ih later

theorem nameOf_snoc (fragments : List ChatToolCall) (delta : ChatToolCall) :
    nameOf (fragments ++ [delta]) = (nameOf fragments).or delta.name := by
  simp [nameOf,findSome?_append]

theorem nameOf_of_unnamed (unnamed : ¬ Named fragments) : nameOf fragments = none := by
  refine List.findSome?_eq_none_iff.mpr fun delta member => ?_
  cases name : delta.name with
  | none => rfl
  | some => exact absurd ⟨delta,member,by simp [name]⟩ unnamed

/-! ### What one delta does -/

namespace ToolCallTracker

def extend (delta : ChatToolCall) (call : TrackedToolCall) : TrackedToolCall :=
  { signed delta call with arguments := call.arguments ++ delta.arguments.getD "" }

@[simp] theorem extend_id (delta : ChatToolCall) (call : TrackedToolCall) : (extend delta call).id = call.id := by
  unfold extend signed
  split_ifs <;> rfl

@[simp] theorem extend_name (delta : ChatToolCall) (call : TrackedToolCall) : (extend delta call).name = call.name := by
  unfold extend signed
  split_ifs <;> rfl

variable {position : Nat} {t : ToolCallTracker} {calls deltas : List ChatToolCall} {foreign : String → Bool}
  {id : String} {α β : Type} {R : α → β → Prop} {l : List α} {m : List β}

theorem set_eq_modify {calls : List TrackedToolCall} {call : TrackedToolCall}
    (found : calls[position]? = some call) (change : TrackedToolCall → TrackedToolCall) :
    calls.set position (change call) = calls.modify position change := by
  obtain ⟨inside,rfl⟩ := List.getElem?_eq_some_iff.mp found
  refine ext_getElem? fun k => ?_
  rw [getElem?_set,getElem?_modify]
  split_ifs with here
  · subst here
    simp [inside]
  · simp

theorem process_existing_calls (t : ToolCallTracker) (position : Nat) (delta : ChatToolCall) :
    (t.process_existing position delta).1 = { t with calls := t.calls.modify position (extend delta) } := by
  unfold process_existing
  cases found : t.calls[position]? with
  | none =>
    have outside : t.calls.length ≤ position := List.getElem?_eq_none_iff.mp found
    simp only [modify_eq_self outside]
  | some call =>
    have kept : (signed delta call).arguments = call.arguments := by
      unfold signed
      split_ifs <;> rfl
    rw [← set_eq_modify found]
    cases carried : delta.arguments.filter (· ≠ "") with
    | none =>
      have nothing : delta.arguments.getD "" = "" := by
        cases arguments : delta.arguments with
        | none => rfl
        | some =>
          by_contra filled
          rw [arguments,filter_some_pos (by simpa using filled)] at carried
          cases carried
      have same : extend delta call = signed delta call := by
        unfold extend
        rw [nothing,String.append_empty,← kept]
      simp only [same]
    | some =>
      obtain ⟨arguments,-⟩ := filter_eq_some_iff.mp carried
      simp only [extend,arguments,Option.getD_some,kept]

/-- The call that a delta belongs to: the one that its id names, else its index, else the latest. -/
theorem existing_eq (t : ToolCallTracker) (delta : ChatToolCall) :
    t.existing delta = ((carriedId delta).bind fun id => t.by_id.lookup id).or
      (match delta.index with
        | some index => t.by_index.lookup index
        | none => t.latest) := by
  unfold existing carriedId
  cases delta.id with
  | none => rfl
  | some id =>
    by_cases empty : id = ""
    · rw [Option.filter_some_neg (by simpa using empty)]
      cases delta.index <;> simp [empty]
    · rw [filter_some_pos (by simpa using empty)]
      simp only [Option.bind_some,if_neg empty]
      cases t.by_id.lookup id <;> rfl

theorem process_delta_existing
    (found : t.existing delta = some position) (generate_id : Nat → String) (key : String) :
    (t.process_delta generate_id key delta).1 =
      { t with calls := t.calls.modify position (extend delta) }.settle delta.index position := by
  unfold process_delta
  rw [found]
  simp only [process_existing_calls]

def track (t : ToolCallTracker) (call : TrackedToolCall) (generated : Nat) : ToolCallTracker :=
  { t with
    by_id := put t.by_id call.id t.calls.length
    calls := t.calls ++ [call]
    generated := generated }

theorem process_delta_new {name : String}
    (unknown : t.existing delta = none) (named : delta.name = some name) (generate_id : Nat → String) (key : String) :
    ∃ id generated metadata, (carriedId delta = some id ∨ carriedId delta = none ∧ ∃ n, id = generate_id n) ∧
      (t.process_delta generate_id key delta).1 =
        (t.track ⟨id,name,delta.arguments.getD "",metadata⟩ generated).settle delta.index t.calls.length := by
  have source : carriedId delta = some (t.newId generate_id delta).1 ∨
      carriedId delta = none ∧ ∃ n, (t.newId generate_id delta).1 = generate_id n := by
    unfold newId carriedId
    cases delta.id.filter (· ≠ "") with
    | none => exact .inr ⟨rfl,_,rfl⟩
    | some => exact .inl rfl
  refine ⟨_,(t.newId generate_id delta).2,signatureMetadata key delta,source,?_⟩
  unfold process_delta process_new
  rw [unknown,named]
  rfl

theorem process_delta_unnamed
    (unknown : t.existing delta = none) (unnamed : delta.name = none) (generate_id : Nat → String) (key : String) :
    (t.process_delta generate_id key delta).1 = t := by
  unfold process_delta process_new
  rw [unknown,unnamed]

theorem process_emits_none (t : ToolCallTracker) (generate_id : Nat → String) (key : String) (delta : ChatToolCall) :
    (t.process generate_id key delta).2.filterMap toolCallOf = [] := by
  have delta_silent (t : ToolCallTracker) (delta : ChatToolCall) :
      (t.process_delta generate_id key delta).2.filterMap toolCallOf = [] := by
    unfold process_delta
    cases t.existing delta with
    | some =>
      dsimp only
      unfold process_existing
      split
      · rfl
      · dsimp only
        split <;> rfl
    | none =>
      dsimp only
      unfold process_new
      cases delta.name with
      | none => rfl
      | some =>
        dsimp only
        split_ifs <;> rfl
  unfold process
  split
  · exact delta_silent t delta
  · dsimp only
    split_ifs
    · exact delta_silent t delta
    · split
      · rfl
      · exact delta_silent _ _

theorem process_delta_waits (t : ToolCallTracker) (generate_id : Nat → String) (key : String) (delta : ChatToolCall) :
    (t.process_delta generate_id key delta).1.pending = t.pending ∧
      (t.process_delta generate_id key delta).1.forwarded = t.forwarded := by
  cases found : t.existing delta with
  | some =>
    rw [process_delta_existing found]
    exact ⟨rfl,rfl⟩
  | none =>
    cases named : delta.name with
    | none =>
      rw [process_delta_unnamed found named]
      exact ⟨rfl,rfl⟩
    | some =>
      obtain ⟨_,_,_,_,result⟩ := process_delta_new found named generate_id key
      rw [result]
      exact ⟨rfl,rfl⟩

section
variable {κ : Type} [DecidableEq κ] {index : κ → Nat} {generate_id : Nat → String} {key : String}
  {fragments : List (κ × ChatToolCall)} {t : ToolCallTracker} {call : κ} {delta : ChatToolCall}

/-- What waits for a name after `fragments`. -/
structure Waits (index : κ → Nat) (fragments : List (κ × ChatToolCall)) (t : ToolCallTracker) : Prop where
  forwarded : ∀ call, index call ∈ t.forwarded ↔ Named (own fragments call)
  waiting : ∀ call, ¬ Named (own fragments call) →
    ((t.pending.lookup (index call)).getD ⟨none,"",none⟩).id = (own fragments call).findSome? (·.id) ∧
      ((t.pending.lookup (index call)).getD ⟨none,"",none⟩).arguments = argumentsOf (own fragments call)
  unnamed : ∀ n, (t.pending.lookup n).isSome → ∃ call, index call = n ∧ own fragments call ≠ [] ∧ ¬ Named (own fragments call)

/-- What a fragment with an index comes to: a fragment of a named call goes to the
    calls, another one waits unless it brings the name. -/
theorem process_indexed (waits : Waits index fragments t) (carries : delta.index = some (index call))
    (generate_id : Nat → String) (key : String) :
    (Named (own fragments call) ∧ t.process generate_id key delta = t.process_delta generate_id key delta) ∨
    (¬ Named (own fragments call) ∧ delta.name = none ∧ ∃ pending : PendingToolCall,
      pending.id = (own fragments call ++ [delta]).findSome? (·.id) ∧
      pending.arguments = argumentsOf (own fragments call ++ [delta]) ∧
      (t.process generate_id key delta).1 = { t with pending := put t.pending (index call) pending }) ∨
    (¬ Named (own fragments call) ∧ ∃ forward : ChatToolCall, delta.name.isSome ∧ forward.name = delta.name ∧
      forward.index = some (index call) ∧
      carriedId forward = ((own fragments call ++ [delta]).findSome? (·.id)).filter (· ≠ "") ∧
      forward.arguments.getD "" = argumentsOf (own fragments call ++ [delta]) ∧
      t.process generate_id key delta =
        { t with pending := remove t.pending (index call),forwarded := t.forwarded ++ [index call] }.process_delta
          generate_id key forward) := by
  unfold process
  rw [carries]
  dsimp only
  by_cases named : Named (own fragments call)
  · exact .inl ⟨named,by rw [if_pos ((waits.forwarded call).mpr named)]⟩
  · obtain ⟨id,arguments⟩ := waits.waiting call named
    have grown : ((t.pending.lookup (index call)).getD ⟨none,"",none⟩).arguments ++ delta.arguments.getD "" =
        argumentsOf (own fragments call ++ [delta]) := by
      rw [arguments,argumentsOf_snoc]
    have known : (((t.pending.lookup (index call)).getD ⟨none,"",none⟩).id <|> delta.id) =
        (own fragments call ++ [delta]).findSome? (·.id) := by
      rw [id,findSome?_append]
      cases (own fragments call).findSome? (·.id) <;> simp
    rw [if_neg (mt (waits.forwarded call).mp named)]
    cases name : delta.name with
    | none => exact .inr (.inl ⟨named,rfl,_,known,grown,rfl⟩)
    | some =>
      refine .inr (.inr ⟨named,_,rfl,rfl,rfl,?_,?_,rfl⟩)
      · rw [carriedId,known]
      · exact grown

variable {other : κ} {order : List κ} {tracked : TrackedToolCall} {generated k : Nat}

theorem named_of_silent {call : κ} (silent : delta.name = none) :
    Named (own (fragments ++ [(call,delta)]) other) ↔ Named (own fragments other) := by
  rw [own_snoc]
  split_ifs
  · rw [named_snoc,silent]
    simp
  · rfl

theorem process_waits (injective : Function.Injective index) (waits : Waits index fragments t)
    (carries : delta.index = some (index call)) (generate_id : Nat → String) (key : String) :
    Waits index (fragments ++ [(call,delta)]) (t.process generate_id key delta).1 := by
  have others {other : κ} (differs : call ≠ other) : own (fragments ++ [(call,delta)]) other = own fragments other := by
    rw [own_snoc,if_neg differs]
  have grown : own (fragments ++ [(call,delta)]) call = own fragments call ++ [delta] := by rw [own_snoc,if_pos rfl]
  have apart {other : κ} (differs : call ≠ other) : index other ≠ index call := fun same => differs (injective same).symm
  rcases process_indexed waits carries generate_id key with ⟨named,result⟩ | ⟨unnamed,silent,pending,id,arguments,result⟩ |
    ⟨unnamed,forward,brings,_,_,_,_,result⟩
  · -- nothing waits for a named call
    have still (other : κ) : Named (own (fragments ++ [(call,delta)]) other) ↔ Named (own fragments other) := by
      by_cases same : call = other
      · subst same
        rw [grown,named_snoc]
        exact ⟨fun _ => named,.inl⟩
      · rw [others same]
    obtain ⟨pending,forwarded⟩ := process_delta_waits t generate_id key delta
    rw [result]
    refine ⟨fun other => ?_,fun other unnamed => ?_,fun n waiting => ?_⟩
    · rw [forwarded,still,waits.forwarded]
    · rw [still] at unnamed
      have differs : call ≠ other := fun same => unnamed (same ▸ named)
      rw [pending,others differs]
      exact waits.waiting other unnamed
    · rw [pending] at waiting
      obtain ⟨other,same,nonempty,unnamed⟩ := waits.unnamed n waiting
      have differs : call ≠ other := fun equal => unnamed (equal ▸ named)
      refine ⟨other,same,?_,mt (still other).mp unnamed⟩
      rw [others differs]
      exact nonempty
  · have still (other : κ) : Named (own (fragments ++ [(call,delta)]) other) ↔ Named (own fragments other) :=
      named_of_silent silent
    rw [result]
    refine ⟨fun other => ?_,fun other unnamed' => ?_,fun n waiting => ?_⟩
    · rw [still]
      exact waits.forwarded other
    · rw [lookup_put]
      by_cases same : call = other
      · subst same
        rw [if_pos rfl,grown]
        exact ⟨id,arguments⟩
      · rw [if_neg (apart same),others same]
        exact waits.waiting other (mt (still other).mpr unnamed')
    · rw [lookup_put] at waiting
      split_ifs at waiting with here
      · exact ⟨call,here.symm,by simp [grown],mt (still call).mp unnamed⟩
      · obtain ⟨other,same,nonempty,unnamed'⟩ := waits.unnamed n waiting
        refine ⟨other,same,?_,mt (still other).mp unnamed'⟩
        rw [others (fun equal => here (same ▸ equal ▸ rfl))]
        exact nonempty
  · have known : Named (own (fragments ++ [(call,delta)]) call) := by
      rw [grown,named_snoc]
      exact .inr brings
    obtain ⟨pending,forwarded⟩ := process_delta_waits
      { t with pending := remove t.pending (index call),forwarded := t.forwarded ++ [index call] } generate_id key forward
    rw [result]
    refine ⟨fun other => ?_,fun other unnamed' => ?_,fun n waiting => ?_⟩
    · rw [forwarded,mem_append,mem_singleton]
      by_cases same : call = other
      · subst same
        exact ⟨fun _ => known,fun _ => .inr rfl⟩
      · rw [others same,or_iff_left (apart same)]
        exact waits.forwarded other
    · have differs : call ≠ other := fun same => unnamed' (same ▸ known)
      rw [others differs] at unnamed' ⊢
      rw [pending,lookup_remove,if_neg (apart differs)]
      exact waits.waiting other unnamed'
    · rw [pending,lookup_remove] at waiting
      split_ifs at waiting with here
      · cases waiting
      · obtain ⟨other,same,nonempty,unnamed'⟩ := waits.unnamed n waiting
        have differs : call ≠ other := fun equal => here (same ▸ equal ▸ rfl)
        exact ⟨other,same,others differs ▸ nonempty,others differs ▸ unnamed'⟩

/-- The calls that began, in order, and how the tracker finds them. The ids that
    deltas carry are told from generated ones by `foreign`. -/
structure Begun (index : κ → Nat) (generate_id : Nat → String) (foreign : String → Bool)
    (fragments : List (κ × ChatToolCall)) (order : List κ) (t : ToolCallTracker) : Prop where
  once : order.Nodup
  named : ∀ call ∈ order, Named (own fragments call)
  ids : List.Forall₂ (fun call id => idAtName (own fragments call) = some id ∨
    idAtName (own fragments call) = none ∧ ∃ n, id = generate_id n) order (t.calls.map (·.id))
  known : ∀ id ∈ t.calls.map (·.id), (t.by_id.lookup id).isSome
  indexed : ∀ call, Named (own fragments call) → (t.by_index.lookup (index call)).isSome
  distinct : ((t.calls.map (·.id)).filter foreign).Nodup

theorem idAtName_of_named (named : Named calls) (more : List ChatToolCall) :
    idAtName (calls ++ more) = idAtName calls := by
  rw [idAtName,idAtName,untilName_of_named named]

theorem idAtName_own {call : κ} (named : Named (own fragments other)) :
    idAtName (own (fragments ++ [(call,delta)]) other) = idAtName (own fragments other) := by
  rw [own_snoc]
  split_ifs
  · exact idAtName_of_named named _
  · rfl

theorem named_own {call : κ} (named : Named (own fragments other)) : Named (own (fragments ++ [(call,delta)]) other) := by
  rw [own_snoc]
  split_ifs
  · exact named_snoc.mpr (.inl named)
  · exact named

theorem modify_ids (calls : List TrackedToolCall) (position : Nat) (delta : ChatToolCall) :
    (calls.modify position (extend delta)).map (·.id) = calls.map (·.id) := by
  refine ext_getElem? fun k => ?_
  rw [getElem?_map,getElem?_map,getElem?_modify]
  cases calls[k]? with
  | none => rfl
  | some => by_cases here : position = k <;> simp [here]

theorem indexed_settle (indexed : ∀ call, Named (own fragments call) → (t.by_index.lookup (index call)).isSome)
    (call other : κ) (position : Nat) (named : Named (own (fragments ++ [(call,delta)]) other)) :
    ((put t.by_index (index call) position).lookup (index other)).isSome := by
  rw [lookup_put]
  split_ifs with same
  · rfl
  · have differs : call ≠ other := fun equal => same (equal ▸ rfl)
    rw [own_snoc,if_neg differs] at named
    exact indexed other named

section
variable (begun : Begun index generate_id foreign fragments order t)
include begun

theorem Begun.ids_own (call : κ) (delta : ChatToolCall) :
    List.Forall₂ (fun other id => idAtName (own (fragments ++ [(call,delta)]) other) = some id ∨
      idAtName (own (fragments ++ [(call,delta)]) other) = none ∧ ∃ n, id = generate_id n) order (t.calls.map (·.id)) := by
  refine ((forall₂_and_left _ _).mpr ⟨begun.named,begun.ids⟩).imp ?_
  rintro _ _ ⟨named,_⟩
  rwa [idAtName_own named]

theorem Begun.extend
    (call : κ) (delta forward : ChatToolCall) (position : Nat) :
    Begun index generate_id foreign (fragments ++ [(call,delta)]) order
      ({ t with calls := t.calls.modify position (ToolCallTracker.extend forward) }.settle (some (index call)) position) where
  once := begun.once
  named other member := named_own (begun.named other member)
  ids := by
    rw [settle,modify_ids]
    exact begun.ids_own call delta
  known := modify_ids t.calls position forward ▸ begun.known
  indexed other named := indexed_settle begun.indexed call other position named
  distinct := modify_ids t.calls position forward ▸ begun.distinct

theorem Begun.track
    (generated_none : ∀ n, foreign (generate_id n) = false) {call : κ} (fresh : ¬ Named (own fragments call))
    (brings : delta.name.isSome)
    (source : idAtName (own fragments call ++ [delta]) = some tracked.id ∧ t.by_id.lookup tracked.id = none ∨
      idAtName (own fragments call ++ [delta]) = none ∧ ∃ n, tracked.id = generate_id n) :
    Begun index generate_id foreign (fragments ++ [(call,delta)]) (order ++ [call])
      ((t.track tracked generated).settle (some (index call)) t.calls.length) where
  once := by
    have absent : call ∉ order := fun mem => fresh (begun.named call mem)
    exact List.nodup_append.mpr ⟨begun.once,nodup_singleton _,fun other mem last same =>
      fun equal => absent (List.mem_singleton.mp same ▸ equal ▸ mem)⟩
  named other mem := by
    rcases List.mem_append.mp mem with before | last
    · exact named_own (begun.named other before)
    · rw [List.mem_singleton.mp last,own_snoc,if_pos rfl]
      exact named_snoc.mpr (.inr brings)
  ids := by
    simp only [settle,ToolCallTracker.track,map_append,map_singleton]
    refine rel_append (begun.ids_own call delta) (.cons ?_ .nil)
    rw [own_snoc,if_pos rfl]
    exact source.imp And.left id
  known id mem := by
    simp only [settle,ToolCallTracker.track,map_append,map_singleton,lookup_put] at mem ⊢
    split_ifs with same
    · rfl
    · exact begun.known id ((List.mem_append.mp mem).resolve_right fun last => same (List.mem_singleton.mp last))
  indexed other named := indexed_settle begun.indexed call other t.calls.length named
  distinct := by
    simp only [settle,ToolCallTracker.track,map_append,map_singleton,filter_append]
    rcases source with ⟨_,unknown⟩ | ⟨_,n,same⟩
    · have absent : tracked.id ∉ t.calls.map (·.id) := by
        intro mem
        have known := begun.known _ mem
        rw [unknown] at known
        cases known
      refine List.nodup_append.mpr ⟨begun.distinct,List.Nodup.filter _ (nodup_singleton _),?_⟩
      intro id mem last here same
      have mine := List.mem_singleton.mp (List.mem_filter.mp here).1
      exact absent (mine ▸ same ▸ (List.mem_filter.mp mem).1)
    · rw [filter_cons_of_neg (by simp [same,generated_none]),filter_nil,append_nil]
      exact begun.distinct

end

theorem carried_of_idAtName (known : idAtName calls = some id) : ∃ delta ∈ calls, carriedId delta = some id := by
  obtain ⟨found,filled⟩ := filter_eq_some_iff.mp known
  obtain ⟨delta,mem,carries⟩ := exists_of_findSome?_eq_some found
  refine ⟨delta,?_,?_⟩
  · rcases List.mem_append.mp mem with before | last
    · exact (takeWhile_sublist _).subset before
    · exact (dropWhile_sublist _).subset (mem_of_mem_take last)
  · rw [carriedId,carries]
    exact filter_some_pos filled

structure Whole (index : κ → Nat) (foreign : String → Bool) (fragments : List (κ × ChatToolCall)) (order : List κ)
    (t : ToolCallTracker) : Prop where
  complete : ∀ call, Named (own fragments call) → call ∈ order
  by_index : ∀ call k, t.by_index.lookup (index call) = some k → order[k]? = some call
  by_id : ∀ id k, foreign id → t.by_id.lookup id = some k →
    ∃ call, order[k]? = some call ∧ idAtName (own fragments call) = some id
  made : List.Forall₂ (fun call (tracked : TrackedToolCall) => nameOf (own fragments call) = some tracked.name ∧
    tracked.arguments = argumentsOf (own fragments call)) order t.calls

def Apart (foreign : String → Bool) (fragments : List (κ × ChatToolCall)) (call : κ) (delta : ChatToolCall) : Prop :=
  ∀ d ∈ own fragments call ++ [delta], ∀ id, carriedId d = some id → foreign id = true ∧
    ∀ other, ∀ d' ∈ own fragments other, carriedId d' = some id → call = other

theorem Whole.existing_own (whole : Whole index foreign fragments order t)
    (apart : Apart foreign fragments call delta) {forward : ChatToolCall} (carries : forward.index = some (index call))
    (carried : ∀ id, carriedId forward = some id → ∃ d ∈ own fragments call ++ [delta], carriedId d = some id)
    (found : t.existing forward = some k) : order[k]? = some call := by
  rw [existing_eq,carries] at found
  rcases Option.or_eq_some_iff.mp found with named | ⟨_,indexed⟩
  · obtain ⟨id,own_id,known⟩ := Option.bind_eq_some_iff.mp named
    obtain ⟨d,mem,has⟩ := carried id own_id
    obtain ⟨from_delta,only⟩ := apart d mem id has
    obtain ⟨other,place,at_name⟩ := whole.by_id id k from_delta known
    obtain ⟨d',member',has'⟩ := carried_of_idAtName at_name
    rw [only other d' member' has']
    exact place
  · exact whole.by_index call k indexed

theorem forall₂_modify {S : α → β → Prop} {a : α} {change : β → β}
    (each : List.Forall₂ R l m) (once : l.Nodup) : ∀ {k : Nat}, l[k]? = some a → (∀ b, R a b → S a (change b)) →
      (∀ a' b, a' ≠ a → R a' b → S a' b) → List.Forall₂ S l (m.modify k change) := by
  induction each with
  | nil => intro k place; cases place
  | cons first rest ih =>
    intro k place changed others
    rw [nodup_cons] at once
    cases k with
    | zero =>
      cases place
      refine .cons (changed _ first) ?_
      have away : ∀ a' ∈ _, a' ≠ a := fun a' mem same => once.1 (same ▸ mem)
      exact ((forall₂_and_left _ _).mpr ⟨away,rest⟩).imp fun a' b both => others a' b both.1 both.2
    | succ =>
      rw [getElem?_cons_succ] at place
      have later := mem_of_getElem? place
      exact .cons (others _ _ (fun same => once.1 (same ▸ later)) first) (ih once.2 place changed others)

theorem Whole.extend (whole : Whole index foreign fragments order t)
    (injective : Function.Injective index) (once : order.Nodup) (ordered : ∀ call ∈ order, Named (own fragments call))
    (named : Named (own fragments call)) (place : order[k]? = some call) :
    Whole index foreign (fragments ++ [(call,delta)]) order
      ({ t with calls := t.calls.modify k (ToolCallTracker.extend delta) }.settle (some (index call)) k) where
  complete other here := by
    rw [own_snoc] at here
    split_ifs at here with same
    · exact same ▸ whole.complete call named
    · exact whole.complete other here
  by_index other k' found := by
    simp only [settle,lookup_put] at found
    split_ifs at found with same
    · cases found
      rw [injective same]
      exact place
    · exact whole.by_index other k' found
  by_id id k' from_delta known := by
    obtain ⟨other,here,at_name⟩ := whole.by_id id k' from_delta known
    refine ⟨other,here,?_⟩
    rw [idAtName_own (ordered other (mem_of_getElem? here))]
    exact at_name
  made := by
    refine forall₂_modify whole.made once place ?_ ?_
    · rintro tracked ⟨name,arguments⟩
      rw [own_snoc,if_pos rfl,nameOf_snoc,argumentsOf_snoc,name,← arguments]
      exact ⟨by simp,rfl⟩
    · intro other tracked differs holds
      rwa [own_snoc,if_neg (Ne.symm differs)]

theorem Whole.track (whole : Whole index foreign fragments order t)
    (injective : Function.Injective index) (ordered : ∀ call ∈ order, Named (own fragments call))
    (same_length : order.length = t.calls.length) (generated_none : ∀ n, foreign (generate_id n) = false)
    (fresh : ¬ Named (own fragments call))
    (source : idAtName (own fragments call ++ [delta]) = some tracked.id ∨ ∃ n, tracked.id = generate_id n)
    (name : some tracked.name = delta.name) (arguments : tracked.arguments = argumentsOf (own fragments call ++ [delta])) :
    Whole index foreign (fragments ++ [(call,delta)]) (order ++ [call])
      ((t.track tracked generated).settle (some (index call)) t.calls.length) where
  complete other here := by
    rw [own_snoc] at here
    split_ifs at here with same
    · exact mem_append_right _ (List.mem_singleton.mpr same.symm)
    · exact mem_append_left _ (whole.complete other here)
  by_index other k found := by
    simp only [settle,ToolCallTracker.track,lookup_put] at found
    split_ifs at found with same
    · cases found
      rw [injective same,← same_length]
      simp
    · exact getElem?_append_left (List.getElem?_eq_some_iff.mp (whole.by_index other k found)).1 ▸ whole.by_index other k found
  by_id id k from_delta known := by
    simp only [settle,ToolCallTracker.track,lookup_put] at known
    split_ifs at known with same
    · cases known
      refine ⟨call,by rw [← same_length]; simp,?_⟩
      rw [own_snoc,if_pos rfl,same]
      rcases source with at_name | ⟨n,made⟩
      · exact at_name
      · rw [same,made,generated_none] at from_delta
        cases from_delta
    · obtain ⟨other,here,at_name⟩ := whole.by_id id k from_delta known
      refine ⟨other,?_,?_⟩
      · rw [getElem?_append_left (List.getElem?_eq_some_iff.mp here).1]
        exact here
      · rw [idAtName_own (ordered other (mem_of_getElem? here))]
        exact at_name
  made := by
    refine rel_append ?_ (.cons ?_ .nil)
    · refine ((forall₂_and_left _ _).mpr ⟨ordered,whole.made⟩).imp ?_
      rintro other _ ⟨named,_⟩
      have differs : call ≠ other := fun same => fresh (same ▸ named)
      rwa [own_snoc,if_neg differs]
    · rw [own_snoc,if_pos rfl,nameOf_snoc,nameOf_of_unnamed fresh,arguments,name]
      exact ⟨rfl,rfl⟩

theorem Begun.wait (begun : Begun index generate_id foreign fragments order t)
    (silent : delta.name = none) (pending : List (Nat × PendingToolCall)) :
    Begun index generate_id foreign (fragments ++ [(call,delta)]) order { t with pending := pending } where
  once := begun.once
  named other member := named_own (begun.named other member)
  ids := begun.ids_own call delta
  known := begun.known
  indexed other named := by
    exact begun.indexed other ((named_of_silent silent).mp named)
  distinct := begun.distinct

theorem Whole.wait (whole : Whole index foreign fragments order t)
    (ordered : ∀ call ∈ order, Named (own fragments call)) (fresh : ¬ Named (own fragments call)) (silent : delta.name = none)
    (pending : List (Nat × PendingToolCall)) :
    Whole index foreign (fragments ++ [(call,delta)]) order { t with pending := pending } where
  complete other named := by
    exact whole.complete other ((named_of_silent silent).mp named)
  by_index := whole.by_index
  by_id id k from_delta known := by
    obtain ⟨other,here,at_name⟩ := whole.by_id id k from_delta known
    exact ⟨other,here,by rw [idAtName_own (ordered other (mem_of_getElem? here))]; exact at_name⟩
  made := by
    refine ((forall₂_and_left _ _).mpr ⟨ordered,whole.made⟩).imp ?_
    rintro other _ ⟨named,_⟩
    have differs : call ≠ other := fun same => fresh (same ▸ named)
    rwa [own_snoc,if_neg differs]

theorem Begun.waiting (begun : Begun index generate_id foreign fragments order t)
    (pending : List (Nat × PendingToolCall)) (forwarded : List Nat) :
    Begun index generate_id foreign fragments order { t with pending := pending,forwarded := forwarded } :=
  ⟨begun.once,begun.named,begun.ids,begun.known,begun.indexed,begun.distinct⟩

theorem Whole.waiting (whole : Whole index foreign fragments order t)
    (pending : List (Nat × PendingToolCall)) (forwarded : List Nat) :
    Whole index foreign fragments order { t with pending := pending,forwarded := forwarded } :=
  ⟨whole.complete,whole.by_index,whole.by_id,whole.made⟩

theorem process_begun (key : String) (injective : Function.Injective index)
    (generated_none : ∀ n, foreign (generate_id n) = false) (waits : Waits index fragments t)
    (begun : Begun index generate_id foreign fragments order t) (carries : delta.index = some (index call)) :
    ∃ order', Begun index generate_id foreign (fragments ++ [(call,delta)]) order' (t.process generate_id key delta).1 ∧
      (Apart foreign fragments call delta → Whole index foreign fragments order t →
        Whole index foreign (fragments ++ [(call,delta)]) order' (t.process generate_id key delta).1) := by
  rcases process_indexed waits carries generate_id key with ⟨named,result⟩ | ⟨fresh,silent,pending,_,_,result⟩ |
    ⟨fresh,forward,brings,forwards,carries',id_at_name,arguments,result⟩
  · obtain ⟨k,found⟩ : ∃ k, t.existing delta = some k := by
      obtain ⟨k,indexed⟩ := isSome_iff_exists.mp (begun.indexed call named)
      rw [existing_eq,carries]
      dsimp only
      rw [indexed]
      cases (carriedId delta).bind fun id => t.by_id.lookup id with
      | none => exact ⟨k,rfl⟩
      | some k' => exact ⟨k',rfl⟩
    rw [result,process_delta_existing found,carries]
    refine ⟨order,begun.extend call delta delta k,fun apart whole => ?_⟩
    have place := whole.existing_own apart carries (fun id has => ⟨delta,by simp,has⟩) found
    exact whole.extend injective begun.once begun.named named place
  · rw [result]
    exact ⟨order,begun.wait silent _,fun _ whole => whole.wait begun.named fresh silent _⟩
  · have carried : ∀ id, carriedId forward = some id → ∃ d ∈ own fragments call ++ [delta], carriedId d = some id := by
      intro id has
      rw [id_at_name,← untilName_of_unnamed fresh delta] at has
      exact carried_of_idAtName has
    have at_name : idAtName (own fragments call ++ [delta]) = carriedId forward := by
      rw [id_at_name,idAtName,untilName_of_unnamed fresh]
    rw [result]
    replace begun := begun.waiting (remove t.pending (index call)) (t.forwarded ++ [index call])
    have forwarding := fun whole : Whole index foreign fragments order t =>
      whole.waiting (remove t.pending (index call)) (t.forwarded ++ [index call])
    generalize { t with pending := remove t.pending (index call),forwarded := t.forwarded ++ [index call] } = t' at *
    cases found : t'.existing forward with
    | some k =>
      rw [process_delta_existing found,carries']
      refine ⟨order,begun.extend call delta forward k,fun apart whole => ?_⟩
      -- nothing that is found for an unnamed call can be that call
      have place := (forwarding whole).existing_own apart carries' carried found
      exact absurd (begun.named call (mem_of_getElem? place)) fresh
    | none =>
      obtain ⟨name,brought⟩ := isSome_iff_exists.mp (forwards ▸ brings : forward.name.isSome)
      obtain ⟨id,_,_,source,done⟩ := process_delta_new found brought generate_id key
      have same_length : order.length = t'.calls.length := by simpa using begun.ids.length_eq
      have unknown (has : carriedId forward = some id) : t'.by_id.lookup id = none := by
        rw [existing_eq,has] at found
        exact (Option.or_eq_none_iff.mp found).1
      rw [done,carries']
      refine ⟨order ++ [call],begun.track generated_none fresh brings ?_,fun apart whole =>
        (forwarding whole).track injective begun.named same_length generated_none fresh ?_ (brought.symm.trans forwards)
          arguments⟩
      · rw [at_name]
        exact source.imp (fun has => ⟨has,unknown has⟩) fun none_ => none_
      · rw [at_name]
        exact source.imp (fun has => has) And.right

end

/-! ### A whole stream of fragments -/

theorem collect_snoc {σ : Type} (round : σ → α → σ × List StreamPart) (l : List α) (a : α) : ∀ s : σ,
    ChatStreamState.collect round s (l ++ [a]) =
      ((round (ChatStreamState.collect round s l).1 a).1,
        (ChatStreamState.collect round s l).2 ++ (round (ChatStreamState.collect round s l).1 a).2) := by
  induction l with
  | nil => intro s; simp [ChatStreamState.collect]
  | cons _ _ ih => intro s; simp [ChatStreamState.collect,ih]

variable (generate_id : Nat → String)

theorem rounds_snoc (key : String) (deltas : List ChatToolCall) (delta : ChatToolCall) :
    (rounds generate_id key (deltas ++ [delta])).1 = ((rounds generate_id key deltas).1.process generate_id key delta).1 := by
  rw [rounds,collect_snoc]
  rfl

theorem rounds_emit_none (key : String) (deltas : List ChatToolCall) :
    (rounds generate_id key deltas).2.filterMap toolCallOf = [] := by
  induction deltas using reverseRecOn with
  | nil => rfl
  | append_singleton _ _ ih =>
    rw [rounds] at ih ⊢
    rw [collect_snoc,filterMap_append,ih,process_emits_none]
    rfl

def closed (key : String) (call : TrackedToolCall) : ToolCall :=
  { ToolCall.new call.id call.name call.arguments with provider_metadata := call.metadata.map (fixMetadata key) }

theorem emitted_calls {generate_id : Nat → String} {key : String}
    (none_waits : (rounds generate_id key deltas).1.pending = []) :
    (emitted generate_id key deltas).filterMap toolCallOf = (rounds generate_id key deltas).1.calls.map (closed key) := by
  rw [emitted,filterMap_append,rounds_emit_none,nil_append,flush,if_neg (by simp [none_waits])]
  induction (rounds generate_id key deltas).1.calls with
  | nil => rfl
  | cons _ _ ih =>
    rw [flatMap_cons,filterMap_append,ih]
    rfl

section
variable {κ : Type} [DecidableEq κ] {index : κ → Nat} {generate_id : Nat → String} {key : String}
  {fragments : List (κ × ChatToolCall)}

def foreignTo (fragments : List (κ × ChatToolCall)) (id : String) : Bool := fragments.any fun fragment => fragment.2.id = some id

def AllApart (fragments : List (κ × ChatToolCall)) : Prop :=
  ∀ first ∈ fragments, ∀ second ∈ fragments, ∀ id, carriedId first.2 = some id → carriedId second.2 = some id → first.1 = second.1

theorem rounds_begun (key : String) (injective : Function.Injective index)
    (generated_none : ∀ n, foreign (generate_id n) = false) (fragments : List (κ × ChatToolCall)) :
    (∀ fragment ∈ fragments, fragment.2.index = some (index fragment.1)) →
      Waits index fragments (rounds generate_id key (fragments.map (·.2))).1 ∧
        ∃ order, Begun index generate_id foreign fragments order (rounds generate_id key (fragments.map (·.2))).1 ∧
          ((∀ fragment ∈ fragments, ∀ id, carriedId fragment.2 = some id → foreign id = true) → AllApart fragments →
            Whole index foreign fragments order (rounds generate_id key (fragments.map (·.2))).1) := by
  induction fragments using reverseRecOn with
  | nil =>
    intro _
    refine ⟨⟨?_,?_,?_⟩,[],⟨?_,?_,?_,?_,?_,?_⟩,fun _ _ => ⟨?_,?_,?_,.nil⟩⟩ <;>
      simp [rounds,ChatStreamState.collect,empty,own,Named,argumentsOf,join_nil]
  | append_singleton earlier fragment ih =>
    obtain ⟨call,delta⟩ := fragment
    intro carries
    obtain ⟨waits,_,begun,holds⟩ := ih fun other mem => carries other (mem_append_left _ mem)
    have own_index : delta.index = some (index call) := carries (call,delta) (by simp)
    rw [map_append,map_singleton,rounds_snoc]
    refine ⟨process_waits injective waits own_index generate_id key,?_⟩
    obtain ⟨order',begun',holds'⟩ := process_begun key injective generated_none waits begun own_index
    refine ⟨order',begun',fun known apart => holds' ?_ (holds ?_ ?_)⟩
    · intro d mem id has
      have listed : (call,d) ∈ earlier ++ [(call,delta)] := by
        rcases List.mem_append.mp mem with before | last
        · exact mem_append_left _ (mem_own.mp before)
        · rw [List.mem_singleton.mp last]
          simp
      refine ⟨known (call,d) listed id has,fun other d' member' has' => ?_⟩
      exact apart (call,d) listed (other,d') (mem_append_left _ (mem_own.mp member')) id has has'
    · exact fun other mem => known other (mem_append_left _ mem)
    · exact fun first mem second member' => apart first (mem_append_left _ mem) second (mem_append_left _ member')

theorem OneCall.known (one : OneCall calls) : Named calls := by
  obtain ⟨delta,rest⟩ := List.length_eq_one_iff.mp one.named
  have mem : delta ∈ calls.filter (·.name.isSome) := rest ▸ mem_singleton_self delta
  exact ⟨delta,(List.mem_filter.mp mem).1,(List.mem_filter.mp mem).2⟩

theorem OneCall.at_name (one : OneCall calls) (known : idAtName calls = some id) : idOf calls = some id := by
  obtain ⟨delta,member,has⟩ := carried_of_idAtName known
  exact one.identified delta member id has

theorem carried_of_idOf (known : idOf calls = some id) :
    ∃ delta ∈ calls, carriedId delta = some id := List.exists_of_findSome?_eq_some known

theorem none_waits (waits : Waits index fragments t)
    (calls : ∀ fragment ∈ fragments, OneCall (own fragments fragment.1)) : t.pending = [] := by
  refine List.eq_nil_iff_forall_not_mem.mpr fun entry mem => ?_
  obtain ⟨call,_,nonempty,unnamed⟩ := waits.unnamed entry.1 (lookup_isSome_of_mem mem)
  obtain ⟨delta,inside⟩ := exists_mem_of_ne_nil _ nonempty
  exact unnamed (OneCall.known (calls (call,delta) (mem_own.mp inside)))

theorem named_listed {call : κ} (named : Named (own fragments call)) : call ∈ fragments.map (·.1) := by
  obtain ⟨delta,mem,_⟩ := named
  exact List.mem_map.mpr ⟨(call,delta),mem_own.mp mem,rfl⟩

theorem assembles_of_indexed (carried : (Carrier.Index index).carried fragments)
    (fresh : ∀ n, foreignTo fragments (generate_id n) = false)
    (calls : ∀ fragment ∈ fragments, OneCall (own fragments fragment.1))
    (assembled : (Carrier.Index index).assembled fragments) :
    Assembles fragments (emitted generate_id key (fragments.map (·.2))) := by
  obtain ⟨waits,order,begun,holds⟩ := rounds_begun key carried.1 fresh fragments carried.2
  have foreign : ∀ fragment ∈ fragments, ∀ id, carriedId fragment.2 = some id → foreignTo fragments id = true := by
    intro fragment mem id has
    have carries := (filter_eq_some_iff.mp has).1
    exact List.any_eq_true.mpr ⟨fragment,mem,by simpa using carries⟩
  have apart : AllApart fragments := by
    intro first mem second member' id has has'
    have here := (calls first mem).identified first.2 (mem_own.mpr mem) id has
    have there := (calls second member').identified second.2 (mem_own.mpr member') id has'
    refine (assembled.2 first mem second member' (here.trans there.symm)).resolve_left ?_
    rw [here]
    exact Option.some_ne_none id
  have whole := holds foreign apart
  refine ⟨order,begun.once,fun call => ⟨fun mem => named_listed (begun.named call mem),fun listed => ?_⟩,?_⟩
  · obtain ⟨fragment,mem,rfl⟩ := List.mem_map.mp listed
    exact whole.complete _ (OneCall.known (calls fragment mem))
  · rw [emitted_calls (none_waits waits calls),forall₂_map_right_iff]
    refine List.Forall₂.mp ?_ (List.forall₂_map_right_iff.mp begun.ids)
      ((forall₂_and_left _ _).mpr ⟨begun.named,whole.made⟩)
    rintro _ _ source ⟨named,name,arguments⟩
    refine ⟨fun id has => ?_,name,arguments⟩
    obtain ⟨fragment,mem,rfl⟩ := List.mem_map.mp (named_listed named)
    rw [assembled.1 fragment mem] at source
    rcases source with same | ⟨unknown,_⟩
    · exact some.inj (same.symm.trans has)
    · cases unknown.symm.trans has

variable {p : α → Bool}

theorem forall₂_countP_le {q : β → Bool}
    (each : List.Forall₂ R l m) (imp : ∀ a b, R a b → p a → q b) : l.countP p ≤ m.countP q := by
  induction each with
  | nil => rfl
  | cons first rest ih =>
    rename_i a b l m
    rw [countP_cons,countP_cons]
    have head := imp a b first
    split_ifs with yes also
    · omega
    · exact absurd (head yes) also
    · omega
    · omega

theorem holds_of_countP_le {q : α → Bool} (imp : ∀ a ∈ l, q a → p a)
    (count : l.countP p ≤ l.countP q) : ∀ a ∈ l, p a → q a := by
  induction l with
  | nil => intro a mem; cases mem
  | cons first rest ih =>
    have later := countP_mono_left (l := rest) (p := q) (q := p) fun a mem => imp a (mem_cons_of_mem _ mem)
    have here := imp first mem_cons_self
    rw [countP_cons,countP_cons] at count
    intro a mem holds
    rcases List.mem_cons.mp mem with rfl | inside
    · by_contra fails
      simp [holds,fails] at count
      omega
    · refine ih (fun b mem => imp b (mem_cons_of_mem _ mem)) ?_ a inside holds
      split_ifs at count with yes also also
      · omega
      · omega
      · exact absurd (here also) yes
      · omega

theorem forall₂_pairwise {S : β → β → Prop} {T : α → α → Prop}
    (each : List.Forall₂ R l m) (pairs : m.Pairwise S) (imp : ∀ a b x y, R a x → R b y → S x y → T a b) : l.Pairwise T := by
  induction each with
  | nil => exact .nil
  | cons first rest ih =>
    obtain ⟨head,tail⟩ := List.pairwise_cons.mp pairs
    refine List.pairwise_cons.mpr ⟨fun b member => ?_,ih tail⟩
    obtain ⟨y,inside,related⟩ := Result.each_left rest member
    exact imp _ _ _ _ first related (head y inside)

/-- Two calls have different ids, unless they are one. -/
def Told (fragments : List (κ × ChatToolCall)) (call other : κ) : Prop :=
  ∀ id, idOf (own fragments call) = some id → idOf (own fragments other) = some id → call = other

instance (fragments : List (κ × ChatToolCall)) : Std.Symm (Told fragments) :=
  ⟨fun _ _ told id mine theirs => (told id theirs mine).symm⟩

theorem indexed_of_assembles (carried : (Carrier.Index index).carried fragments)
    (fresh : ∀ n, foreignTo fragments (generate_id n) = false)
    (calls : ∀ fragment ∈ fragments, OneCall (own fragments fragment.1))
    (assembles : Assembles fragments (emitted generate_id key (fragments.map (·.2)))) :
    (Carrier.Index index).assembled fragments := by
  obtain ⟨waits,_,begun,-⟩ := rounds_begun key carried.1 fresh fragments carried.2
  obtain ⟨all,once,listed,each⟩ := assembles
  rw [emitted_calls (none_waits waits calls),forall₂_map_right_iff] at each
  have foreign {call : κ} {id : String} (has : idOf (own fragments call) = some id) : foreignTo fragments id = true := by
    obtain ⟨delta,mem,carries⟩ := carried_of_idOf has
    exact List.any_eq_true.mpr ⟨(call,delta),mem_own.mp mem,by simpa using (filter_eq_some_iff.mp carries).1⟩
  have ids : List.Forall₂ (fun call id => ∀ own_id, idOf (own fragments call) = some own_id → id = own_id) all
      ((rounds generate_id key (fragments.map (·.2))).1.calls.map (·.id)) :=
    List.forall₂_map_right_iff.mpr (each.imp fun call tracked made => made.id)
  have one : ∀ call ∈ all, OneCall (own fragments call) := by
    intro call mem
    obtain ⟨fragment,inside,rfl⟩ := List.mem_map.mp ((listed call).mp mem)
    exact calls fragment inside
  constructor
  · -- as many ids known with the names as there are ids
    have emitted_ids := forall₂_countP_le (p := fun call => (idOf (own fragments call)).isSome) (q := foreignTo fragments) ids
      fun call id own_id some_ => by
        obtain ⟨value,has⟩ := isSome_iff_exists.mp some_
        rw [own_id value has]
        exact foreign has
    have known_ids := forall₂_countP_le (p := foreignTo fragments) (q := fun call => (idAtName (own fragments call)).isSome)
      begun.ids.flip fun id call source known => by
        rcases source with same | ⟨_,n,rfl⟩
        · exact isSome_iff_exists.mpr ⟨id,same⟩
        · rw [fresh n] at known
          cases known
    have fewer := (begun.once.subperm fun call mem => (listed call).mpr (named_listed (begun.named call mem))).countP_le
      (fun call => (idAtName (own fragments call)).isSome)
    have imp : ∀ call ∈ all, (idAtName (own fragments call)).isSome → (idOf (own fragments call)).isSome := by
      intro call mem some_
      obtain ⟨id,known⟩ := isSome_iff_exists.mp some_
      exact isSome_iff_exists.mpr ⟨id,OneCall.at_name (one call mem) known⟩
    have known := holds_of_countP_le imp (emitted_ids.trans (known_ids.trans fewer))
    intro fragment mem
    have inside := (listed fragment.1).mpr (mem_map_of_mem mem)
    cases at_name : idAtName (own fragments fragment.1) with
    | some => exact (OneCall.at_name (one _ inside) at_name).symm
    | none =>
      cases has : idOf (own fragments fragment.1) with
      | none => rfl
      | some =>
        have contra := known _ inside (by simp [has])
        simp [at_name] at contra
  · have distinct := List.pairwise_filter.mp begun.distinct
    have pairs := forall₂_pairwise (T := Told fragments) ids distinct
      fun call other id id' has has' differ own_id mine theirs => by
        have both := (has own_id mine).trans (has' own_id theirs).symm
        exact absurd both (differ (has own_id mine ▸ foreign mine) (has' own_id theirs ▸ foreign theirs))
    intro first mem second member' same
    cases mine : idOf (own fragments first.1) with
    | none => exact .inl rfl
    | some id =>
      refine .inr (List.Pairwise.forall_of_forall (fun _ _ _ _ _ => rfl) pairs ((listed _).mpr (mem_map_of_mem mem))
        ((listed _).mpr (mem_map_of_mem member')) id mine (same.symm.trans mine))

end

/-- The tracker after fragments without an index: no call before the first name,
    then one that takes every fragment. -/
structure Single (deltas : List ChatToolCall) (t : ToolCallTracker) : Prop where
  pending : t.pending = []
  latest : t.latest.isSome → t.latest = some 0
  by_id : ∀ id k, t.by_id.lookup id = some k → t.latest = some 0 ∧ k = 0
  calls : (¬ Named deltas ∧ t.calls = [] ∧ t.latest = none) ∨ ∃ tracked, t.calls = [tracked] ∧ t.latest = some 0 ∧
    Named deltas ∧ nameOf deltas = some tracked.name ∧ tracked.arguments = argumentsOf (deltas.dropWhile (·.name.isNone)) ∧
      ∃ delta ∈ deltas, carriedId delta = some tracked.id

theorem dropWhile_of_named (named : Named deltas) (more : List ChatToolCall) :
    (deltas ++ more).dropWhile (·.name.isNone) = deltas.dropWhile (·.name.isNone) ++ more := by
  induction deltas with
  | nil =>
    obtain ⟨delta,mem,_⟩ := named
    cases mem
  | cons first rest ih =>
    cases name : first.name with
    | some => simp [name]
    | none =>
      have later : Named rest := by
        obtain ⟨delta,mem,here⟩ := named
        rcases List.mem_cons.mp mem with rfl | inside
        · simp [name] at here
        · exact ⟨delta,inside,here⟩
      simpa [name] using ih later

theorem dropWhile_of_unnamed (unnamed : ¬ Named deltas) (more : List ChatToolCall) :
    (deltas ++ more).dropWhile (·.name.isNone) = more.dropWhile (·.name.isNone) := by
  refine dropWhile_append_of_pos fun delta member => ?_
  cases name : delta.name with
  | none => rfl
  | some => exact absurd ⟨delta,member,by simp [name]⟩ unnamed

theorem process_single (single : Single deltas t)
    (unindexed : delta.index = none) (has : carriedId delta = some id) (generate_id : Nat → String) (key : String) :
    Single (deltas ++ [delta]) (t.process generate_id key delta).1 := by
  have direct : t.process generate_id key delta = t.process_delta generate_id key delta := by
    unfold process
    rw [unindexed]
  rw [direct]
  rcases single.calls with ⟨unnamed,nothing,no_latest⟩ | ⟨tracked,calls,latest,named,name,arguments,carrier⟩
  · have unknown : t.existing delta = none := by
      rw [existing_eq,has,unindexed,Option.or_eq_none_iff]
      refine ⟨?_,no_latest⟩
      cases known : (some id).bind fun id => t.by_id.lookup id with
      | none => rfl
      | some k =>
        have held := (single.by_id id k known).1
        rw [no_latest] at held
        cases held
    cases brings : delta.name with
    | none =>
      rw [process_delta_unnamed unknown brings]
      refine ⟨single.pending,single.latest,single.by_id,.inl ⟨?_,nothing,no_latest⟩⟩
      rw [named_snoc,brings]
      simpa using unnamed
    | some =>
      obtain ⟨id',_,_,source,done⟩ := process_delta_new unknown brings generate_id key
      have same : id' = id := by
        rcases source with own_id | ⟨none_,_⟩
        · exact some.inj (own_id.symm.trans has)
        · cases none_.symm.trans has
      rw [done,unindexed,same]
      refine ⟨single.pending,?_,?_,.inr ⟨_,by simp [settle,track,nothing]; rfl,by simp [settle,nothing],?_,?_,?_,?_⟩⟩
      · simp [settle,nothing]
      · intro other k found
        simp only [settle,track,nothing,length_nil,lookup_put] at found ⊢
        refine ⟨trivial,?_⟩
        split_ifs at found
        · cases found
          rfl
        · have held := (single.by_id other k found).1
          rw [no_latest] at held
          cases held
      · exact named_snoc.mpr (.inr (by simp [brings]))
      · rw [nameOf_snoc,nameOf_of_unnamed unnamed,brings]
        rfl
      · rw [dropWhile_of_unnamed unnamed]
        simp [brings,argumentsOf,join_cons,join_nil]
      · exact ⟨delta,by simp,has⟩
  · have found : t.existing delta = some 0 := by
      rw [existing_eq,has,unindexed]
      cases known : (some id).bind fun id => t.by_id.lookup id with
      | none => exact latest
      | some k => rw [(single.by_id id k known).2]; rfl
    rw [process_delta_existing found,unindexed]
    refine ⟨single.pending,fun _ => rfl,fun other k held => ⟨rfl,(single.by_id other k held).2⟩,
      .inr ⟨extend delta tracked,?_,rfl,named_snoc.mpr (.inl named),?_,?_,?_⟩⟩
    · simp [settle,calls]
    · rw [nameOf_snoc,name,extend_name]
      rfl
    · rw [dropWhile_of_named named,argumentsOf_snoc,← arguments]
      rfl
    · obtain ⟨other,mem,own_id⟩ := carrier
      exact ⟨other,mem_append_left _ mem,by rw [extend_id]; exact own_id⟩

theorem rounds_single (key : String) (deltas : List ChatToolCall) :
    (∀ delta ∈ deltas, delta.index = none ∧ ∃ id, carriedId delta = some id) → Single deltas (rounds generate_id key deltas).1 := by
  induction deltas using reverseRecOn with
  | nil =>
    intro _
    refine ⟨rfl,by simp [rounds,ChatStreamState.collect,empty],?_,.inl ⟨by simp [Named],rfl,rfl⟩⟩
    intro id k found
    cases found
  | append_singleton _ delta ih =>
    intro carries
    rw [rounds_snoc]
    obtain ⟨unindexed,_,has⟩ := carries delta (by simp)
    exact process_single (ih fun other mem => carries other (mem_append_left _ mem)) unindexed has generate_id key

section
variable {κ : Type} [DecidableEq κ] {id : κ → String} {generate_id : Nat → String} {key : String}
  {fragments : List (κ × ChatToolCall)}

theorem own_of_single {call : κ} (same : ∀ fragment ∈ fragments, fragment.1 = call) :
    own fragments call = fragments.map (·.2) := by
  rw [own,List.filter_eq_self.mpr fun fragment mem => decide_eq_true (same fragment mem)]

theorem join_eq_empty_iff {texts : List String} : join texts = "" ↔ ∀ text ∈ texts, text = "" := by
  induction texts with
  | nil => simp [join_nil]
  | cons _ _ ih => simp [join_cons,String.append_eq_empty_iff,ih]

theorem argumentsOf_split (deltas : List ChatToolCall) : argumentsOf deltas =
    argumentsOf (deltas.takeWhile (·.name.isNone)) ++ argumentsOf (deltas.dropWhile (·.name.isNone)) := by
  have whole := congrArg argumentsOf (takeWhile_append_dropWhile (p := fun d : ChatToolCall => d.name.isNone) (l := deltas))
  rw [← whole,argumentsOf,map_append,join_append]
  rfl

omit [DecidableEq κ] in
theorem quiet_iff : (∀ fragment ∈ fragments.takeWhile (·.2.name.isNone), fragment.2.arguments.getD "" = "") ↔
    argumentsOf ((fragments.map (·.2)).takeWhile (·.name.isNone)) = "" := by
  rw [argumentsOf,join_eq_empty_iff,takeWhile_map,map_map,forall_mem_map]
  rfl

omit [DecidableEq κ] in
theorem rounds_identified (carried : (Carrier.Id id).carried fragments) (generate_id : Nat → String) (key : String) :
    Single (fragments.map (·.2)) (rounds generate_id key (fragments.map (·.2))).1 := by
  refine rounds_single generate_id key _ fun delta mem => ?_
  obtain ⟨fragment,inside,rfl⟩ := List.mem_map.mp mem
  obtain ⟨unindexed,has,filled⟩ := carried.2 fragment inside
  exact ⟨unindexed,_,by rw [carriedId,has]; exact filter_some_pos (by simpa using filled)⟩

theorem identified_of_assembles (carried : (Carrier.Id id).carried fragments)
    (assembles : Assembles fragments (emitted generate_id key (fragments.map (·.2)))) :
    (Carrier.Id id).assembled fragments := by
  have single := rounds_identified carried generate_id key
  obtain ⟨_,_,listed,each⟩ := assembles
  rw [emitted_calls single.pending] at each
  rcases single.calls with ⟨_,calls,_⟩ | ⟨_,calls,_,_,_,arguments,_⟩
  · rw [calls] at each
    cases each
    have nothing : fragments = [] := List.eq_nil_iff_forall_not_mem.mpr fun fragment mem =>
      absurd ((listed fragment.1).mpr (mem_map_of_mem mem)) (not_mem_nil)
    subst nothing
    exact ⟨by simp,by simp⟩
  · rw [calls] at each
    obtain ⟨call,_,made,others,rfl⟩ := List.forall₂_cons_right_iff.mp each
    cases others
    have same : ∀ fragment ∈ fragments, fragment.1 = call := fun fragment mem =>
      List.mem_singleton.mp ((listed fragment.1).mpr (mem_map_of_mem mem))
    refine ⟨fun first mem second member' => (same first mem).trans (same second member').symm,quiet_iff.mpr ?_⟩
    have input := made.arguments
    rw [own_of_single same,argumentsOf_split] at input
    exact String.append_eq_right_iff.mp (arguments.symm.trans input).symm

theorem assembles_of_identified (carried : (Carrier.Id id).carried fragments)
    (calls : ∀ fragment ∈ fragments, OneCall (own fragments fragment.1))
    (assembled : (Carrier.Id id).assembled fragments) :
    Assembles fragments (emitted generate_id key (fragments.map (·.2))) := by
  have single := rounds_identified carried generate_id key
  rw [Assembles,emitted_calls single.pending]
  cases fragments with
  | nil => exact ⟨[],.nil,by simp,.nil⟩
  | cons first rest =>
    have same : ∀ fragment ∈ first :: rest, fragment.1 = first.1 := fun fragment mem =>
      assembled.1 fragment mem first mem_cons_self
    have whole := own_of_single same
    have one := calls first mem_cons_self
    rcases single.calls with ⟨unnamed,_⟩ | ⟨tracked,tracks,_,_,name,arguments,delta,mem,has⟩
    · exact absurd (whole ▸ OneCall.known one) unnamed
    · refine ⟨[first.1],nodup_singleton _,fun call => ?_,?_⟩
      · rw [mem_singleton]
        constructor
        · rintro rfl
          exact mem_map_of_mem mem_cons_self
        · intro inside
          obtain ⟨fragment,mem,rfl⟩ := List.mem_map.mp inside
          exact same fragment mem
      · rw [tracks]
        refine .cons ⟨fun own_id own_has => ?_,?_,?_⟩ .nil
        · have identified := one.identified delta (whole ▸ mem) tracked.id has
          exact some.inj (identified.symm.trans own_has)
        · rw [whole,name]
          rfl
        · rw [whole,argumentsOf_split,quiet_iff.mp assembled.2,String.empty_append]
          exact arguments

end
end ToolCallTracker

def fragmentOf (index : Option Nat) (id name : Option String) (arguments : String) : ChatToolCall :=
  ⟨index,id,some ⟨name,some arguments⟩,none⟩

def interleaved : List (Nat × ChatToolCall) :=
  [(0,fragmentOf (some 0) none none "["),(1,fragmentOf (some 1) (some "b") (some "g") "["),
    (0,fragmentOf (some 0) (some "a") (some "f") "1"),(1,fragmentOf (some 1) none none "]"),(0,fragmentOf (some 0) (some "a") none "]")]

def unindexedCalls : List (Bool × ChatToolCall) :=
  [(false,fragmentOf none (some "a") (some "f") "{}"),(true,fragmentOf none (some "b") (some "g") "{}")]

end Ferrin.OpenAiCompatible
