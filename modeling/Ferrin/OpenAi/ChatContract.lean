import Ferrin.Library.StableSort
import Ferrin.OpenAi.ChatStream
import Ferrin.Stream.Tally

/-!
The stream of a chat completion obeys the contract and assembles its calls. A
fragment belongs to the call whose id or index it carries, or to the latest
one; the tracker finds that call by the same keys.
-/
namespace Ferrin.OpenAi
open Ferrin.Stream Ferrin.Brackets Ferrin.Assoc List Tally ToolCallTracker ChatStreamState
open ChatStreamState (machine)
open String (append_empty join)

/-! ### Fragments and their calls -/

def message : ParseResult ChatResponse → Option ChatMessage
  | .Ok value _ => if value.error.isSome then none else (value.choices.bind List.head?).bind (·.delta)
  | .Err .. => none

def fragmentsOf (chunk : ParseResult ChatResponse) : List ChatToolCall := ((message chunk).bind (·.tool_calls)).getD []

abbrev Fragment := String × ChatToolCall

def lastOf (before : List Fragment) (index : Nat) : Option String :=
  (before.reverse.find? (·.2.index = some index)).map (·.1)

inductive Names (before : List Fragment) : Fragment → Prop
  | first {id name : String} {delta : ChatToolCall} (new : ∀ fragment ∈ before, fragment.1 ≠ id) (nonempty : id ≠ "")
    (carries : delta.id = some id) (named : delta.name = some name) : Names before (id,delta)
  | byId {id : String} {delta : ChatToolCall} (known : ∃ fragment ∈ before, fragment.1 = id)
    (carries : delta.id = some id) : Names before (id,delta)
  | byIndex {id : String} {delta : ChatToolCall} {index : Nat} (anonymous : delta.id.filter (· ≠ "") = none)
    (carries : delta.index = some index) (last : lastOf before index = some id) : Names before (id,delta)
  | latest {id : String} {delta : ChatToolCall} (anonymous : delta.id.filter (· ≠ "") = none)
    (noIndex : delta.index = none) (last : before.getLast?.map (·.1) = some id) : Names before (id,delta)

def Addressed : List Fragment → List Fragment → Prop
  | _,[] => True
  | before,fragment :: rest => Names before fragment ∧ Addressed (before ++ [fragment]) rest

def argumentsOf (id : String) (fragments : List Fragment) : String :=
  join ((fragments.filter (·.1 = id)).map fun fragment => fragment.2.arguments.getD "")

def nameOf (id : String) (fragments : List Fragment) : Option String :=
  (fragments.find? (·.1 = id)).bind (·.2.name)

def callsOf (id : ToolCallId) (parts : List StreamPart) : List ToolCall :=
  parts.filterMap fun
    | .ToolCall call => if call.tool_call_id = id then some call else none
    | _ => none

def inputOf (id : ToolCallId) (parts : List StreamPart) : String :=
  join (parts.filterMap fun
    | .ToolInputDelta other delta _ => if other = id then some delta else none
    | _ => none)

theorem addressed_append (first rest : List Fragment) : ∀ before : List Fragment,
    Addressed before (first ++ rest) → Addressed before first ∧ Addressed (before ++ first) rest := by
  induction first with
  | nil =>
    intro before addressed
    exact ⟨trivial,by rwa [append_nil]⟩
  | cons _ _ ih =>
    intro before ⟨names,addressed⟩
    obtain ⟨here,later⟩ := ih _ addressed
    rw [append_assoc,singleton_append] at later
    exact ⟨⟨names,here⟩,later⟩

theorem inputOf_append (id : ToolCallId) (before after : List StreamPart) :
    inputOf id (before ++ after) = inputOf id before ++ inputOf id after := by
  rw [inputOf,filterMap_append,String.join_append]
  rfl

theorem callsOf_append (id : ToolCallId) (before after : List StreamPart) :
    callsOf id (before ++ after) = callsOf id before ++ callsOf id after := List.filterMap_append

theorem argumentsOf_snoc (id : String) (before : List Fragment) (fragment : Fragment) :
    argumentsOf id (before ++ [fragment]) =
      if fragment.1 = id then argumentsOf id before ++ fragment.2.arguments.getD "" else argumentsOf id before := by
  rw [argumentsOf,filter_append,map_append,String.join_append]
  by_cases own : fragment.1 = id <;> simp [own,argumentsOf]

variable {id : String}

theorem argumentsOf_new {before : List Fragment} (new : ∀ fragment ∈ before, fragment.1 ≠ id) :
    argumentsOf id before = "" := by
  have none_ : before.filter (·.1 = id) = [] := by
    rw [filter_eq_nil_iff]
    intro fragment mem
    simpa using new fragment mem
  rw [argumentsOf,none_]
  rfl

theorem lastOf_snoc (before : List Fragment) (fragment : Fragment) (index : Nat) :
    lastOf (before ++ [fragment]) index =
      if fragment.2.index = some index then some fragment.1 else lastOf before index := by
  rw [lastOf,reverse_append,reverse_singleton,singleton_append,find?_cons]
  by_cases own : fragment.2.index = some index <;> simp [own,lastOf]

theorem nameOf_snoc (id : String) (before : List Fragment) (fragment : Fragment) :
    nameOf id (before ++ [fragment]) = if ∃ other ∈ before, other.1 = id then nameOf id before
      else if fragment.1 = id then fragment.2.name else none := by
  rw [nameOf,find?_append]
  split_ifs with known own
  · obtain ⟨other,mem,own⟩ := known
    have found : (before.find? (·.1 = id)).isSome := List.find?_isSome.mpr ⟨other,mem,by simpa using own⟩
    obtain ⟨_,found⟩ := Option.isSome_iff_exists.mp found
    rw [nameOf,found]
    rfl
  · have none_ : before.find? (·.1 = id) = none := by
      rw [find?_eq_none]
      intro other mem
      simpa using fun own => known ⟨other,mem,own⟩
    rw [none_]
    simp [own]
  · have none_ : before.find? (·.1 = id) = none := by
      rw [find?_eq_none]
      intro other mem
      simpa using fun own => known ⟨other,mem,own⟩
    rw [none_]
    simp [own]

namespace ToolCallTracker

def idAt (t : ToolCallTracker) (position : Nat) : Option String := (t.calls[position]?).map (·.id)

structure Tracks (t : ToolCallTracker) (before : List Fragment) : Prop where
  once : (t.calls.map (·.id)).Nodup
  known : ∀ id, id ∈ t.calls.map (·.id) ↔ ∃ fragment ∈ before, fragment.1 = id
  byId : ∀ id, (∃ fragment ∈ before, fragment.1 = id) → ∃ p, t.by_id.lookup id = some p ∧ t.idAt p = some id
  byIdNew : ∀ id, (∀ fragment ∈ before, fragment.1 ≠ id) → t.by_id.lookup id = none
  byIndex : ∀ index id, lastOf before index = some id → ∃ p, t.by_index.lookup index = some p ∧ t.idAt p = some id
  latest : ∀ id, before.getLast?.map (·.1) = some id → ∃ p, t.latest = some p ∧ t.idAt p = some id
  unfinished : ∀ call ∈ t.calls, call.finished = false ∧ call.id ≠ ""
  arguments : ∀ call ∈ t.calls, call.arguments = argumentsOf call.id before
  named : ∀ call ∈ t.calls, nameOf call.id before = some call.name

section
variable {t : ToolCallTracker} {before : List Fragment} {id : String} {delta : ChatToolCall}

theorem tracks_default : Tracks .default [] := by
  constructor <;> simp [default,lastOf]

theorem Tracks.existing (tracks : Tracks t before) (names : Names before (id,delta))
    (known : ∃ fragment ∈ before, fragment.1 = id) : ∃ p, t.existing delta = some p ∧ t.idAt p = some id := by
  cases names with
  | first new =>
    obtain ⟨fragment,mem,own⟩ := known
    exact absurd own (new fragment mem)
  | byId _ carries =>
    obtain ⟨p,found,at_⟩ := tracks.byId id known
    obtain ⟨call,mem,rfl⟩ := List.mem_map.mp ((tracks.known id).mpr known)
    have brought : delta.id.filter (· ≠ "") = some call.id := by
      simp [carries,(tracks.unfinished call mem).2]
    refine ⟨p,?_,at_⟩
    rw [ToolCallTracker.existing,brought]
    exact found
  | byIndex anonymous carries last =>
    obtain ⟨p,found,at_⟩ := tracks.byIndex _ _ last
    refine ⟨p,?_,at_⟩
    rw [ToolCallTracker.existing,anonymous,carries]
    exact found
  | latest anonymous noIndex last =>
    obtain ⟨p,found,at_⟩ := tracks.latest _ last
    refine ⟨p,?_,at_⟩
    rw [ToolCallTracker.existing,anonymous,noIndex]
    exact found

theorem Tracks.first_or_known (names : Names before (id,delta)) :
    ((∀ fragment ∈ before, fragment.1 ≠ id) ∧ id ≠ "" ∧ delta.id = some id ∧ ∃ name, delta.name = some name) ∨
      ∃ fragment ∈ before, fragment.1 = id := by
  cases names with
  | first new nonempty carries named => exact .inl ⟨new,nonempty,carries,_,named⟩
  | byId known => exact .inr known
  | byIndex _ _ last =>
    obtain ⟨fragment,found,own⟩ := Option.map_eq_some_iff.mp last
    exact .inr ⟨fragment,List.mem_reverse.mp (mem_of_find?_eq_some found),own⟩
  | latest _ _ last =>
    obtain ⟨fragment,found,own⟩ := Option.map_eq_some_iff.mp last
    exact .inr ⟨fragment,mem_of_getLast? found,own⟩

variable {p : Nat} {call changed : TrackedToolCall}

theorem process_existing_eq (found : t.calls[p]? = some call)
    (unfinished : call.finished = false) : t.process_existing p delta =
      ({ t with calls := t.calls.set p { call with arguments := call.arguments ++ delta.arguments.getD "" } },
        (delta.arguments.map fun arguments => StreamPart.ToolInputDelta call.id arguments none).toList) := by
  obtain ⟨id,name,begun,_⟩ := call
  cases unfinished
  rw [process_existing,found]
  cases delta.arguments with
  | none =>
    obtain ⟨_,here⟩ := List.getElem?_eq_some_iff.mp found
    have same : t.calls.set p ⟨id,name,begun ++ "",false⟩ = t.calls := by
      rw [append_empty,← here,set_getElem_self]
    exact congrArg (fun calls => ({ t with calls },([] : List StreamPart))) same.symm
  | some => rfl

theorem idAt_set (found : t.calls[p]? = some call) (same : changed.id = call.id)
    (q : Nat) : ToolCallTracker.idAt { t with calls := t.calls.set p changed } q = t.idAt q := by
  unfold idAt
  obtain ⟨bound,-⟩ := List.getElem?_eq_some_iff.mp found
  by_cases here : p = q
  · subst here
    simp [getElem?_set_self bound,found,same]
  · simp [getElem?_set_ne here]

theorem ids_set (found : t.calls[p]? = some call) (same : changed.id = call.id) :
    (t.calls.set p changed).map (·.id) = t.calls.map (·.id) := by
  refine ext_getElem? fun q => ?_
  rw [getElem?_map,getElem?_map]
  exact idAt_set found same q

/-- The keys after a fragment that belongs to the call at `p`. -/
theorem Tracks.settle_keys (tracks : Tracks t before) (delta : ChatToolCall) (t' : ToolCallTracker)
    (by_index : t'.by_index = t.by_index)
    (kept : ∀ q id, t.idAt q = some id → t'.idAt q = some id) (at_ : t'.idAt p = some id) :
    (∀ index other, lastOf (before ++ [(id,delta)]) index = some other →
      ∃ q, (t'.settle delta.index p).by_index.lookup index = some q ∧ (t'.settle delta.index p).idAt q = some other) ∧
    ∀ other, (before ++ [(id,delta)]).getLast?.map (·.1) = some other →
      ∃ q, (t'.settle delta.index p).latest = some q ∧ (t'.settle delta.index p).idAt q = some other := by
  constructor
  · intro index other last
    rw [lastOf_snoc] at last
    have old (before_ : lastOf before index = some other) : ∃ q, t'.by_index.lookup index = some q ∧
        t'.idAt q = some other := by
      obtain ⟨q,found,here⟩ := tracks.byIndex _ _ before_
      exact ⟨q,by_index ▸ found,kept _ _ here⟩
    cases carried : delta.index with
    | none =>
      rw [if_neg (by simp [carried])] at last
      exact old last
    | some own =>
      have looked : (t'.settle (some own) p).by_index.lookup index =
          if index = own then some p else t'.by_index.lookup index := lookup_put _ _ _ _
      rw [looked]
      by_cases same : index = own
      · rw [if_pos (by simp [carried,same])] at last
        cases last
        exact ⟨p,if_pos same,at_⟩
      · rw [if_neg (by simpa [carried] using Ne.symm same)] at last
        rw [if_neg same]
        exact old last
  · intro other last
    rw [getLast?_concat,Option.map_some] at last
    cases last
    exact ⟨p,rfl,at_⟩

/-- A fragment continues the call at `p`. -/
theorem Tracks.continues (tracks : Tracks t before) (delta : ChatToolCall)
    (found : t.calls[p]? = some call) (own : call.id = id) : Tracks (settle (process_existing t p delta).1 delta.index p) (before ++ [(id,delta)]) ∧
      (settle (process_existing t p delta).1 delta.index p).calls.map (·.id) = t.calls.map (·.id) ∧
      (process_existing t p delta).2 =
        (delta.arguments.map fun arguments => StreamPart.ToolInputDelta id arguments none).toList := by
  subst own
  have mem := mem_of_getElem? found
  rw [process_existing_eq found (tracks.unfinished call mem).1]
  generalize changed_ : ({ call with arguments := call.arguments ++ delta.arguments.getD "" } : TrackedToolCall) = changed
  have same : changed.id = call.id := by rw [← changed_]
  have ids := ids_set found same
  have known : ∃ fragment ∈ before, fragment.1 = call.id := (tracks.known _).mp (mem_map_of_mem mem)
  have at_ (q : Nat) : idAt { t with calls := t.calls.set p changed } q = t.idAt q := idAt_set found same q
  have here : t.idAt p = some call.id := by simp [idAt,found]
  obtain ⟨byIndex,latest⟩ := tracks.settle_keys (p := p) delta { t with calls := t.calls.set p changed }
    rfl (fun q id old => (at_ q).trans old) ((at_ p).trans here)
  have others (entry : TrackedToolCall) (inside : entry ∈ t.calls.set p changed) :
      entry = changed ∨ (entry ∈ t.calls ∧ entry.id ≠ call.id) := by
    obtain ⟨q,bound,here_⟩ := List.mem_iff_getElem.mp inside
    rw [length_set] at bound
    rw [getElem_set] at here_
    split_ifs at here_ with own
    · exact .inl here_.symm
    · refine .inr ⟨here_ ▸ getElem_mem bound,?_⟩
      intro twice
      have at_q : t.calls[q]? = some entry := List.getElem?_eq_some_iff.mpr ⟨bound,here_⟩
      have equal : (t.calls.map (·.id))[q]? = (t.calls.map (·.id))[p]? := by
        simp [at_q,found,twice]
      exact own ((getElem?_inj (by simpa using bound) tracks.once).mp equal).symm
  refine ⟨?_,ids,rfl⟩
  have knownAfter (other : String) : (∃ fragment ∈ before ++ [(call.id,delta)], fragment.1 = other) ↔
      ∃ fragment ∈ before, fragment.1 = other := by
    constructor
    · rintro ⟨fragment,inside,own⟩
      rcases List.mem_append.mp inside with old | new
      · exact ⟨fragment,old,own⟩
      · obtain rfl := List.mem_singleton.mp new
        exact own ▸ known
    · rintro ⟨fragment,inside,own⟩
      exact ⟨fragment,mem_append_left _ inside,own⟩
  exact {
    once := ids ▸ tracks.once
    known := fun other => (ids ▸ tracks.known other).trans (knownAfter other).symm
    byId := by
      intro other fragments
      obtain ⟨q,found_,old⟩ := tracks.byId other ((knownAfter other).mp fragments)
      exact ⟨q,found_,(at_ q).trans old⟩
    byIdNew := by
      intro other absent
      exact tracks.byIdNew other fun fragment inside => absent fragment (mem_append_left _ inside)
    byIndex
    latest
    unfinished := by
      intro entry inside
      rcases others entry inside with rfl | ⟨old,-⟩
      · subst changed_
        exact tracks.unfinished call mem
      · exact tracks.unfinished entry old
    arguments := by
      intro entry inside
      rw [argumentsOf_snoc]
      rcases others entry inside with rfl | ⟨old,other⟩
      · rw [if_pos same.symm,same,← tracks.arguments call mem,← changed_]
      · rw [if_neg (Ne.symm other)]
        exact tracks.arguments entry old
    named := by
      intro entry inside
      rw [nameOf_snoc]
      rcases others entry inside with rfl | ⟨old,-⟩
      · rw [if_pos (same ▸ known),same,tracks.named call mem,← changed_]
      · rw [if_pos ((tracks.known _).mp (mem_map_of_mem old))]
        exact tracks.named entry old }

theorem Tracks.begins (tracks : Tracks t before) (new : ∀ fragment ∈ before, fragment.1 ≠ id) (nonempty : id ≠ "")
    (carries : delta.id = some id) {name : String} (named : delta.name = some name) : ∃ next : ToolCallTracker,
      t.process_delta delta = (next,.ToolInputStart id name false false none none ::
        if delta.arguments.getD "" = "" then [] else [.ToolInputDelta id (delta.arguments.getD "") none]) ∧
      Tracks next (before ++ [(id,delta)]) ∧ next.calls.map (·.id) = t.calls.map (·.id) ++ [id] := by
  have absent : t.existing delta = none := by
    rw [ToolCallTracker.existing]
    simp only [carries,Option.filter_some,decide_eq_true_eq.mpr nonempty,if_true]
    exact tracks.byIdNew id new
  let next : ToolCallTracker := { t with
    by_id := put t.by_id id t.calls.length
    calls := t.calls ++ [⟨id,name,delta.arguments.getD "",false⟩] }
  have kept (q : Nat) (other : String) (old : t.idAt q = some other) : next.idAt q = some other := by
    obtain ⟨call,found,own⟩ := Option.map_eq_some_iff.mp old
    have bound := (List.getElem?_eq_some_iff.mp found).1
    simp [idAt,next,getElem?_append_left bound,found,own]
  have here : next.idAt t.calls.length = some id := by simp [idAt,next]
  obtain ⟨byIndex,latest⟩ := tracks.settle_keys delta next rfl kept here
  refine ⟨next.settle delta.index t.calls.length,?_,?_,?_⟩
  · rw [process_delta,absent]
    simp only [process_new,carries,named,if_neg nonempty]
    rfl
  · have unknown : id ∉ t.calls.map (·.id) := by
      rw [tracks.known]
      rintro ⟨fragment,mem,own⟩
      exact new fragment mem own
    have inside (call : TrackedToolCall) (mem : call ∈ next.calls) :
        call ∈ t.calls ∧ call.id ≠ id ∨ call = ⟨id,name,delta.arguments.getD "",false⟩ := by
      rcases List.mem_append.mp mem with old | own
      · exact .inl ⟨old,fun same => unknown (same ▸ mem_map_of_mem old)⟩
      · exact .inr (List.mem_singleton.mp own)
    have knownAfter (other : String) : (∃ fragment ∈ before ++ [(id,delta)], fragment.1 = other) ↔
        (∃ fragment ∈ before, fragment.1 = other) ∨ other = id := by
      simp [or_and_right,exists_or,eq_comm]
    exact {
      once := by
        have ids : (next.settle delta.index t.calls.length).calls.map (·.id) = t.calls.map (·.id) ++ [id] := by
          simp [next,settle]
        rw [ids]
        exact List.nodup_append.mpr ⟨tracks.once,nodup_singleton _,by
          intro a mem b own
          obtain rfl := List.mem_singleton.mp own
          exact fun same => unknown (same ▸ mem)⟩
      known := by
        intro other
        rw [knownAfter,← tracks.known]
        simp [next,settle]
      byId := by
        intro other fragments
        have looked : (next.settle delta.index t.calls.length).by_id.lookup other =
            if other = id then some t.calls.length else t.by_id.lookup other := lookup_put _ _ _ _
        rw [looked]
        by_cases own : other = id
        · subst own
          exact ⟨_,if_pos rfl,here⟩
        · obtain ⟨q,found,old⟩ := tracks.byId other (((knownAfter other).mp fragments).resolve_right own)
          exact ⟨q,(if_neg own).trans found,kept _ _ old⟩
      byIdNew := by
        intro other absent_
        have looked : (next.settle delta.index t.calls.length).by_id.lookup other =
            if other = id then some t.calls.length else t.by_id.lookup other := lookup_put _ _ _ _
        rw [looked,if_neg]
        · exact tracks.byIdNew other fun fragment mem => absent_ fragment (mem_append_left _ mem)
        · exact fun same => absent_ (id,delta) (by simp) same.symm
      byIndex
      latest
      unfinished := by
        intro call mem
        rcases inside call mem with ⟨old,-⟩ | rfl
        · exact tracks.unfinished call old
        · exact ⟨rfl,nonempty⟩
      arguments := by
        intro call mem
        rw [argumentsOf_snoc]
        rcases inside call mem with ⟨old,other⟩ | rfl
        · rw [if_neg (Ne.symm other)]
          exact tracks.arguments call old
        · rw [if_pos rfl,argumentsOf_new new,String.empty_append]
      named := by
        intro call mem
        rw [nameOf_snoc]
        rcases inside call mem with ⟨old,-⟩ | rfl
        · rw [if_pos ((tracks.known _).mp (mem_map_of_mem old))]
          exact tracks.named call old
        · rw [if_neg (by rintro ⟨fragment,mem,own⟩; exact new fragment mem own),if_pos rfl]
          exact named }
  · simp [next,settle]

end

end ToolCallTracker

/-! ### What is open -/

open ToolCallTracker (Tracks)

def textIds (s : ChatStreamState) : List PartId := if s.text_active then [TEXT_PART_ID] else []

def toolIds (s : ChatStreamState) : List ToolCallId := s.tool_calls.calls.map (·.id)

def openKeys (s : ChatStreamState) : List PartKey := (textIds s).map PartKey.text ++ (toolIds s).map PartKey.toolInput

/-- The output so far kept the contract, and streams of each call what its fragments bring. -/
inductive Stands (s : ChatStreamState) (before : List Fragment) (out : List StreamPart) : Prop
  | running (tallied : (Tally.running ∅ [] []).after out = .running (openKeys s).toFinset (textIds s) (toolIds s))
    (tracks : Tracks s.tool_calls before) (inputs : ∀ id, inputOf id out = argumentsOf id before)
    (held : ∀ id, callsOf id out = []) : Stands s before out
  | failed (tallied : (Tally.running ∅ [] []).after out = .failed) : Stands s before out

section
variable {config : Config} {s s' : ChatStreamState} {before : List Fragment} {out : List StreamPart}

theorem Stands.congr (stands : Stands s before out) (text : s'.text_active = s.text_active)
    (calls : s'.tool_calls = s.tool_calls) : Stands s' before out := by
  cases stands with
  | failed tallied => exact .failed tallied
  | running tallied tracks inputs held =>
    refine .running ?_ (calls ▸ tracks) inputs held
    rw [tallied,openKeys,openKeys,textIds,textIds,toolIds,toolIds,text,calls]

def Quiet (part : StreamPart) : Prop := Inner part ∧ mark part = none ∧ ∀ call, part ≠ .ToolCall call

variable {part : StreamPart} {parts : List StreamPart} {ids : List PartId} {tools : List ToolCallId}
  {delta : ChatToolCall} {own : List Fragment}

theorem Quiet.inputOf (quiet : Quiet part) (id : ToolCallId) : inputOf id [part] = "" := by
  obtain ⟨-,unmarked,-⟩ := quiet
  cases part with
  | ToolInputDelta => cases unmarked
  | _ => rfl

theorem Quiet.callsOf (quiet : Quiet part) (id : ToolCallId) : callsOf id [part] = [] := by
  obtain ⟨-,-,noCall⟩ := quiet
  cases part with
  | ToolCall call => exact absurd rfl (noCall call)
  | _ => rfl

section
variable (stands : Stands s before out)
include stands

theorem Stands.fails (error : StreamError) (after : List StreamPart) :
    (Tally.running ∅ [] []).after (out ++ .Error error :: after) = .failed := by
  rw [after_append]
  cases stands with
  | failed tallied => rw [tallied,after_failed]
  | running tallied => rw [tallied,after_cons,next_error,after_failed]

theorem Stands.quiet (quiet : ∀ part ∈ parts, Quiet part) :
    Stands s before (out ++ parts) := by
  induction parts generalizing out with
  | nil => rwa [append_nil]
  | cons part _ ih =>
    have silent := quiet part mem_cons_self
    rw [← singleton_append,← append_assoc]
    refine ih ?_ fun p mem => quiet p (mem_cons_of_mem _ mem)
    cases stands with
    | failed tallied =>
      refine .failed ?_
      rw [after_append,tallied,after_failed]
    | running tallied tracks inputs held =>
      refine .running ?_ tracks ?_ ?_
      · rw [after_append,tallied,after_cons,next_quiet silent.1 silent.2.1,after_nil]
      · intro id
        rw [inputOf_append,silent.inputOf,append_empty,inputs]
      · intro id
        rw [callsOf_append,silent.callsOf,held,append_nil]

theorem Stands.add {before' : List Fragment}
    (tracks : Tracks s.tool_calls before → Tracks s'.tool_calls before')
    (tallied : Tracks s.tool_calls before → (Tally.running (openKeys s).toFinset (textIds s) (toolIds s)).after parts =
      .running (openKeys s').toFinset (textIds s') (toolIds s'))
    (inputs : Tracks s.tool_calls before → ∀ id, argumentsOf id before ++ inputOf id parts = argumentsOf id before')
    (held : ∀ id, callsOf id parts = []) : Stands s' before' (out ++ parts) := by
  cases stands with
  | failed failed =>
    refine .failed ?_
    rw [after_append,failed,after_failed]
  | running told tracked fed none_ =>
    refine .running ?_ (tracks tracked) ?_ ?_
    · rw [after_append,told]
      exact tallied tracked
    · intro id
      rw [inputOf_append,fed]
      exact inputs tracked id
    · intro id
      rw [callsOf_append,none_,held]
      rfl

theorem Stands.begin_text : Stands { s with text_active := true } before
    (out ++ if s.text_active then [] else [.TextStart TEXT_PART_ID none]) := by
  cases active : s.text_active with
  | true =>
    rw [if_pos rfl,append_nil]
    exact stands.congr active.symm rfl
  | false =>
    rw [if_neg Bool.false_ne_true]
    refine stands.add (fun tracks => tracks) ?_ (fun _ id => append_empty) (fun id => rfl)
    intro tracks
    rw [after_cons,next_opens (k := .text TEXT_PART_ID) rfl,after_nil]
    · simp [openKeys,textIds,toolIds,active,partId,toolInputId]
    · simp [openKeys,textIds,active]
    · simp [textIds,active]
    · rintro _ ⟨⟩

theorem Stands.text_part (content : Option String) :
    Stands (s.text_part content).1 before (out ++ (s.text_part content).2) := by
  cases content with
  | none =>
    rw [ChatStreamState.text_part,append_nil]
    exact stands
  | some =>
    rw [ChatStreamState.text_part,← append_assoc]
    refine stands.begin_text.add (fun tracks => tracks) ?_ (fun _ id => append_empty) (fun id => rfl)
    intro tracks
    rw [after_cons,next_within (k := .text TEXT_PART_ID) rfl,after_nil]
    simp [openKeys,textIds]

end

theorem after_deltas {opens : Finset PartKey} {id : ToolCallId}
    (isOpen : .toolInput id ∈ opens) (texts : List String) :
    (Tally.running opens ids tools).after (texts.map fun text => .ToolInputDelta id text none) =
      .running opens ids tools := by
  induction texts with
  | nil => rfl
  | cons _ _ ih =>
    rw [map_cons,after_cons,next_within (k := .toolInput id) rfl isOpen]
    exact ih

theorem inputOf_deltas (id other : ToolCallId) (texts : List String) :
    inputOf other (texts.map fun text => .ToolInputDelta id text none) = if id = other then join texts else "" := by
  rw [inputOf,filterMap_map]
  by_cases own : id = other
  · simp [own]
  · simp [own]

theorem callsOf_deltas (id other : ToolCallId) (texts : List String) :
    callsOf other (texts.map fun text => .ToolInputDelta id text none) = [] := by
  simp [callsOf,filterMap_map]

/-- The tracker goes on to `next`, over deltas of the call `id`. -/
theorem Stands.feeds (stands : Stands s before out) {next : ToolCallTracker}
    {texts : List String} (tracks : Tracks s.tool_calls before → Tracks next (before ++ [(id,delta)]))
    (ids : Tracks s.tool_calls before → next.calls.map (·.id) = toolIds s) (isOpen : id ∈ toolIds s)
    (fed : join texts = delta.arguments.getD "") :
    Stands { s with tool_calls := next } (before ++ [(id,delta)])
      (out ++ texts.map fun text => .ToolInputDelta id text none) := by
  refine stands.add tracks ?_ ?_ (callsOf_deltas id · texts)
  · intro tracked
    have same : toolIds { s with tool_calls := next } = toolIds s := ids tracked
    rw [openKeys,openKeys,same]
    exact after_deltas (by simp [isOpen]) texts
  · intro _ other
    rw [inputOf_deltas,argumentsOf_snoc,fed]
    by_cases own : id = other <;> simp [own]

theorem Stands.process_delta (stands : Stands s before out) (names : Names before (id,delta)) :
    Stands { s with tool_calls := (s.tool_calls.process_delta delta).1 } (before ++ [(id,delta)])
      (out ++ (s.tool_calls.process_delta delta).2) := by
  cases stands with
  | failed tallied =>
    refine .failed ?_
    rw [after_append,tallied,after_failed]
  | running tallied tracks inputs held =>
    have stands : Stands s before out := .running tallied tracks inputs held
    rcases Tracks.first_or_known names with ⟨new,nonempty,carries,name,named⟩ | known
    · obtain ⟨next,processed,tracked,ids⟩ := tracks.begins new nonempty carries named
      have unknown : id ∉ toolIds s := by
        rw [toolIds,tracks.known]
        rintro ⟨fragment,member,own⟩
        exact new fragment member own
      have parts : (if delta.arguments.getD "" = "" then [] else
          [StreamPart.ToolInputDelta id (delta.arguments.getD "") none]) =
          (if delta.arguments.getD "" = "" then [] else [delta.arguments.getD ""]).map
            fun text => .ToolInputDelta id text none := by
        split_ifs <;> rfl
      rw [processed,parts]
      refine stands.add (fun _ => tracked) ?_ ?_ ?_
      · intro _
        have grown : toolIds { s with tool_calls := next } = toolIds s ++ [id] := ids
        rw [after_cons,next_opens (k := .toolInput id) rfl]
        · have opened : insert (.toolInput id) (openKeys s).toFinset =
              (openKeys { s with tool_calls := next }).toFinset := by
            have keys : openKeys { s with tool_calls := next } = openKeys s ++ [.toolInput id] := by
              simp [openKeys,grown,textIds]
            rw [keys]
            ext key
            simp [or_comm]
          have noId : (partId (.ToolInputStart id name false false none none)).toList = [] := rfl
          rw [opened,noId,append_nil,grown]
          exact after_deltas (by simp [openKeys,grown]) _
        · simp [openKeys,unknown]
        · rintro other ⟨⟩
        · rintro other ⟨⟩
          exact unknown
      · intro _ other
        have skipped (rest : List StreamPart) :
            inputOf other (.ToolInputStart id name false false none none :: rest) = inputOf other rest := rfl
        rw [skipped,inputOf_deltas,argumentsOf_snoc]
        by_cases own : id = other
        · split_ifs <;> simp_all
        · simp [own]
      · intro other
        exact callsOf_deltas id other _
    · obtain ⟨p,found,at_⟩ := tracks.existing names known
      obtain ⟨_,at_,own⟩ := Option.map_eq_some_iff.mp at_
      obtain ⟨tracked,ids,shown⟩ := tracks.continues delta at_ own
      have processed : s.tool_calls.process_delta delta =
          ((s.tool_calls.process_existing p delta).1.settle delta.index p,
            delta.arguments.toList.map fun text => .ToolInputDelta id text none) := by
        rw [ToolCallTracker.process_delta,found]
        dsimp only
        rw [shown]
        cases delta.arguments <;> rfl
      rw [processed]
      refine stands.feeds (fun _ => tracked) (fun _ => ids) ((tracks.known id).mpr known) ?_
      cases delta.arguments <;> simp

theorem Stands.process_deltas (own : List Fragment) : ∀ {s : ChatStreamState} {before : List Fragment}
    {out : List StreamPart}, Addressed before own → Stands s before out →
    Stands { s with tool_calls := (s.tool_calls.process_deltas (own.map (·.2))).1 } (before ++ own)
      (out ++ (s.tool_calls.process_deltas (own.map (·.2))).2) := by
  induction own with
  | nil =>
    intro s before out _ stands
    rw [append_nil]
    exact (append_nil out).symm ▸ stands
  | cons _ _ ih =>
    intro s before out ⟨names,addressed⟩ stands
    have later := ih addressed (stands.process_delta names)
    rw [append_assoc,singleton_append,append_assoc] at later
    exact later

theorem sources_quiet (annotations : List ChatAnnotation) : ∀ (generated : Nat),
    ∀ part ∈ (ChatStreamState.sources config generated annotations).2, Quiet part := by
  induction annotations with
  | nil => intro generated part mem; cases mem
  | cons annotation _ ih =>
    intro generated part mem
    rw [sources] at mem
    cases cited : annotation.url_citation with
    | none =>
      rw [cited] at mem
      exact ih generated part mem
    | some =>
      rw [cited] at mem
      dsimp only at mem
      split_ifs at mem
      · rcases List.mem_cons.mp mem with rfl | later
        · exact ⟨⟨rfl,rfl⟩,rfl,fun _ => StreamPart.noConfusion⟩
        · exact ih _ part later
      · exact ih generated part mem

theorem Stands.message_delta (stands : Stands s before out) {delta : ChatMessage}
    (tagged : own.map (·.2) = delta.tool_calls.getD []) (addressed : Addressed before own) :
    Stands (s.message_delta config delta).1 (before ++ own) (out ++ (s.message_delta config delta).2) := by
  rw [ChatStreamState.message_delta,← tagged]
  dsimp only
  rw [← append_assoc,← append_assoc]
  exact (((stands.text_part delta.content).process_deltas own addressed).quiet (sources_quiet _ _)).congr rfl rfl

theorem record_fields (value : ChatResponse) (raw : JsonValue) (choice : ChatChoice) :
    ((s.record_usage value raw).text_active = s.text_active ∧ (s.record_usage value raw).tool_calls = s.tool_calls) ∧
      (s.record_choice choice).text_active = s.text_active ∧ (s.record_choice choice).tool_calls = s.tool_calls := by
  constructor
  · unfold record_usage
    split <;> exact ⟨rfl,rfl⟩
  · unfold record_choice
    dsimp only
    split <;> split <;> exact ⟨rfl,rfl⟩

theorem Stands.response_part (stands : Stands s before out) (value : ChatResponse) :
    Stands (s.response_part value).1 before (out ++ (s.response_part value).2) := by
  unfold ChatStreamState.response_part
  split_ifs
  · exact (append_nil out).symm ▸ stands
  · refine (stands.quiet ?_).congr rfl rfl
    intro part mem
    obtain rfl := List.mem_singleton.mp mem
    exact ⟨⟨rfl,rfl⟩,rfl,fun _ => StreamPart.noConfusion⟩

theorem Stands.handle_value {value : ChatResponse} {raw : JsonValue} (stands : Stands s before out)
    (tagged : own.map (·.2) = fragmentsOf (.Ok value raw)) (addressed : Addressed before own) :
    Stands (s.handle_value config value raw).1 (before ++ own) (out ++ (s.handle_value config value raw).2) := by
  unfold ChatStreamState.handle_value
  dsimp only [fragmentsOf,message] at tagged
  by_cases failed : value.error.isSome = true
  · rw [if_pos failed]
    exact .failed (stands.fails _ [])
  · rw [if_neg failed] at tagged ⊢
    have responded := stands.response_part value
    generalize s.response_part value = next at responded ⊢
    obtain ⟨s₁,_⟩ := next
    dsimp only at responded ⊢
    obtain ⟨used,-⟩ := record_fields (s := s₁) value raw ⟨none,none,none⟩
    have recorded := responded.congr used.1 used.2
    cases chosen : value.choices.bind head? with
    | none =>
      rw [chosen] at tagged
      obtain rfl := List.map_eq_nil_iff.mp tagged
      rw [append_nil]
      exact recorded
    | some choice =>
      rw [chosen] at tagged
      obtain ⟨-,picked⟩ := record_fields (s := s₁.record_usage value raw) value raw choice
      have recorded := recorded.congr picked.1 picked.2
      dsimp only
      cases brought : choice.delta with
      | none =>
        rw [Option.bind_some,brought] at tagged
        obtain rfl := List.map_eq_nil_iff.mp tagged
        rw [append_nil]
        exact recorded
      | some =>
        rw [Option.bind_some,brought] at tagged
        dsimp only
        rw [← append_assoc]
        exact recorded.message_delta tagged addressed

theorem raw_quiet (include_raw : Bool) (raw : JsonValue) :
    ∀ part ∈ (if include_raw then [StreamPart.Raw raw] else []), Quiet part := by
  intro part mem
  split_ifs at mem
  · obtain rfl := List.mem_singleton.mp mem
    exact ⟨⟨rfl,rfl⟩,rfl,fun _ => StreamPart.noConfusion⟩
  · cases mem

theorem Stands.handle (chunk : ParseResult ChatResponse) (include_raw : Bool)
    (stands : Stands s before out) (tagged : own.map (·.2) = fragmentsOf chunk) (addressed : Addressed before own) :
    Stands (s.handle config chunk include_raw).1 (before ++ own) (out ++ (s.handle config chunk include_raw).2) := by
  cases chunk with
  | Ok _ raw =>
    have shown := stands.quiet (raw_quiet include_raw raw)
    rw [ChatStreamState.handle]
    dsimp only
    rw [← append_assoc]
    exact shown.handle_value tagged addressed
  | Err _ raw =>
    cases raw with
    | none => exact .failed (stands.fails _ [])
    | some raw =>
      have shown := stands.quiet (raw_quiet include_raw (.string raw))
      unfold ChatStreamState.handle
      dsimp only
      rw [← append_assoc]
      exact .failed (shown.fails _ [])

/-! ### The end -/

theorem after_flush (calls : List TrackedToolCall)
    (once : (calls.map (·.id)).Nodup) (unfinished : ∀ call ∈ calls, call.finished = false) :
    (Tally.running (calls.map fun call => PartKey.toolInput call.id).toFinset ids tools).after
      (calls.flatMap ToolCallTracker.closing) = .running ∅ ids tools := by
  induction calls with
  | nil => rfl
  | cons call rest ih =>
    rw [map_cons,nodup_cons] at once
    have closed : .toolInput call.id ∉ (rest.map fun call => PartKey.toolInput call.id).toFinset := by
      simpa using once.1
    have shown : closing call = [.ToolInputEnd call.id none,.ToolCall (.new call.id call.name call.arguments)] := by
      simp [closing,unfinished call mem_cons_self]
    rw [flatMap_cons,shown,after_append,after_cons,map_cons,toFinset_cons,
      next_closes (k := .toolInput call.id) rfl (Finset.mem_insert_self _ _),Finset.erase_insert closed,
      after_cons,next_quiet ⟨rfl,rfl⟩ rfl]
    exact ih once.2 fun call mem => unfinished call (mem_cons_of_mem _ mem)

theorem callsOf_flush (id : ToolCallId) (calls : List TrackedToolCall)
    (unfinished : ∀ call ∈ calls, call.finished = false) : callsOf id (calls.flatMap ToolCallTracker.closing) =
      (calls.filter (·.id = id)).map fun call => .new call.id call.name call.arguments := by
  induction calls with
  | nil => rfl
  | cons call _ ih =>
    have shown : closing call = [.ToolInputEnd call.id none,.ToolCall (.new call.id call.name call.arguments)] := by
      simp [closing,unfinished call mem_cons_self]
    rw [flatMap_cons,shown,callsOf_append,ih fun call mem => unfinished call (mem_cons_of_mem _ mem)]
    by_cases own : call.id = id <;> simp [callsOf,ToolCall.new,own]

theorem inputOf_flush (id : ToolCallId) (calls : List TrackedToolCall) :
    inputOf id (calls.flatMap ToolCallTracker.closing) = "" := by
  induction calls with
  | nil => rfl
  | cons _ _ ih =>
    rw [flatMap_cons,inputOf_append,ih]
    unfold closing
    split_ifs <;> rfl

def Assembles (fragments : List Fragment) (parts : List StreamPart) : Prop :=
  (∀ id, (∃ fragment ∈ fragments, fragment.1 = id) → ∃ name, nameOf id fragments = some name ∧
    callsOf id parts = [.new id name (argumentsOf id fragments)] ∧ inputOf id parts = argumentsOf id fragments) ∧
  ∀ id, (∀ fragment ∈ fragments, fragment.1 ≠ id) → callsOf id parts = []

theorem assembles_of_tracks {t : ToolCallTracker} (tracks : Tracks t before)
    (emitted : ∀ id, callsOf id parts = (t.calls.filter (·.id = id)).map fun call => .new call.id call.name call.arguments)
    (inputs : ∀ id, inputOf id parts = argumentsOf id before) : Assembles before parts := by
  constructor
  · intro id known
    obtain ⟨call,mem,rfl⟩ := List.mem_map.mp ((tracks.known id).mpr known)
    refine ⟨call.name,tracks.named call mem,?_,inputs call.id⟩
    have inside : call ∈ t.calls.filter (·.id = call.id) := List.mem_filter.mpr ⟨mem,by simp⟩
    have only : t.calls.filter (·.id = call.id) = [call] := by
      rcases StableSort.filter_key tracks.once call.id with none_ | ⟨_,-,-,one⟩
      · rw [none_] at inside
        cases inside
      · rw [one] at inside ⊢
        rw [List.mem_singleton.mp inside]
    rw [emitted,only,map_singleton,tracks.arguments call mem]
  · intro id new
    have none_ : t.calls.filter (·.id = id) = [] := by
      rw [filter_eq_nil_iff]
      intro call mem own
      obtain ⟨fragment,inside,same⟩ := (tracks.known id).mp (of_decide_eq_true own ▸ mem_map_of_mem mem)
      exact new fragment inside same
    rw [emitted,none_]
    rfl

def Ends (fragments : List Fragment) (out : List StreamPart) : Prop :=
  (Tally.running ∅ [] []).after out = .failed ∨
    ((Tally.running ∅ [] []).after out = .finished ∧ Assembles fragments out)

theorem Stands.finish (stands : Stands s before out) : Ends before (out ++ s.finish config) := by
  unfold ChatStreamState.finish
  cases stands with
  | failed tallied =>
    refine .inl ?_
    rw [after_append,tallied,after_failed]
  | running tallied tracks inputs held =>
    by_cases received : s.received_finish_reason = true
    · rw [if_pos received]
      have text : (Tally.running (openKeys s).toFinset (textIds s) (toolIds s)).after
          (if s.text_active then [.TextEnd TEXT_PART_ID none] else []) =
          .running ((s.tool_calls.calls.map fun call => PartKey.toolInput call.id).toFinset) (textIds s) (toolIds s) := by
        unfold openKeys textIds toolIds
        cases s.text_active with
        | false => simp [map_map,Function.comp_def]
        | true =>
          simp only [if_true]
          rw [after_cons,next_closes (k := .text TEXT_PART_ID) rfl (by simp)]
          simp [map_map,Function.comp_def]
      have unfinished (call : TrackedToolCall) (mem : call ∈ s.tool_calls.calls) : call.finished = false :=
        (tracks.unfinished call mem).1
      refine .inr ⟨?_,assembles_of_tracks tracks ?_ ?_⟩
      · rw [after_append,tallied,after_append,after_append,text,flush,
          after_flush _ tracks.once unfinished,after_cons,next_finish,if_pos rfl,after_nil]
      · intro id
        have noEnd : callsOf id (if s.text_active then [.TextEnd TEXT_PART_ID none] else []) = [] := by
          split_ifs <;> rfl
        rw [callsOf_append,held,callsOf_append,callsOf_append,noEnd,flush,callsOf_flush id _ unfinished]
        simp [callsOf]
      · intro id
        have noEnd : inputOf id (if s.text_active then [.TextEnd TEXT_PART_ID none] else []) = "" := by
          split_ifs <;> rfl
        rw [inputOf_append,inputs,inputOf_append,inputOf_append,noEnd,flush,inputOf_flush]
        simp [inputOf]
    · rw [if_neg received]
      refine .inl ?_
      rw [after_append,tallied]
      rfl

theorem Stands.outputs (include_raw : Bool) (chunks : List (ParseResult ChatResponse)) : ∀ {s : ChatStreamState}
    {before own : List Fragment} {out : List StreamPart}, own.map (·.2) = chunks.flatMap fragmentsOf →
    Addressed before own → Stands s before out →
    Ends (before ++ own) (out ++ outputs (machine config) include_raw s chunks) := by
  induction chunks with
  | nil =>
    intro s before own out tagged _ stands
    obtain rfl := List.map_eq_nil_iff.mp tagged
    rw [append_nil]
    exact stands.finish
  | cons chunk rest ih =>
    intro s before own out tagged addressed stands
    rw [flatMap_cons] at tagged
    obtain ⟨first,later,rfl,here,there⟩ := List.map_eq_append_iff.mp tagged
    obtain ⟨now,next⟩ := addressed_append first later before addressed
    have stepped : Stream.outputs (machine config) include_raw s (chunk :: rest) =
        (s.handle config chunk include_raw).2 ++
          Stream.outputs (machine config) include_raw (s.handle config chunk include_raw).1 rest := rfl
    rw [stepped,← append_assoc,← append_assoc]
    exact ih there next (stands.handle chunk include_raw here now)

end

/-- The driven stream obeys the contract, and when it finishes each call was emitted once, with the arguments of
    its own fragments, which its input deltas spell as well. -/
theorem chat_stream_assembles {config : Config} (chunks : List (ParseResult ChatResponse)) (fragments : List Fragment)
    (tagged : fragments.map (·.2) = chunks.flatMap fragmentsOf) (addressed : Addressed [] fragments)
    (warnings : List Warning) (include_raw : Bool) :
    StreamContractChecker.check (drive_stream (.StreamStart warnings) chunks (machine config) .new
        include_raw) = .ok () ∧
      ∀ reason usage metadata, .Finish reason usage metadata ∈ drive_stream (.StreamStart warnings) chunks
          (machine config) .new include_raw →
        Assembles fragments (drive_stream (.StreamStart warnings) chunks (machine config) .new
          include_raw) := by
  have start : Stands .new [] [] := .running rfl tracks_default (fun _ => rfl) fun _ => rfl
  have ends := @Stands.outputs config include_raw chunks _ _ _ _ tagged addressed start
  rw [nil_append,nil_append] at ends
  constructor
  · refine check_ok_of_tally _ _ warnings chunks include_raw ?_
    rcases ends with failed | ⟨finished,-⟩
    · exact .inr failed
    · exact .inl finished
  · intro reason usage metadata member
    rw [drive_stream,drive_eq] at member ⊢
    have shown : .Finish reason usage metadata ∈ live (outputs (machine config) include_raw .new chunks) := by
      rcases List.mem_cons.mp member with bad | driven
      · cases bad
      · exact finish_live _ _ _ _ _ driven
    rcases ends with failed | ⟨finished,assembles⟩
    · exact absurd shown (Tally.failed_no_finish _ _ Tally.noConfusion failed reason usage metadata)
    · rw [driven_of_finished _ _ _ finished]
      exact assembles

def exampleConfig : Config where
  provider_options_key := "openai"
  generate_id := strokes
  number_text _ := "0"
  json_text _ := ""

def exampleDelta (index : Option Nat) (id name : Option String) (arguments : String) : ChatToolCall :=
  ⟨index,id,some ⟨name,some arguments⟩⟩

/-- Two calls whose fragments alternate. -/
def exampleFragments : List Fragment :=
  [("a",exampleDelta (some 0) (some "a") (some "weather") "["),("b",exampleDelta (some 1) (some "b") (some "time") ""),
    ("a",exampleDelta (some 0) none none "1"),("a",exampleDelta none none none "]")]

def exampleChunk (message : ChatMessage) (finish_reason : Option String) : ParseResult ChatResponse :=
  .Ok ⟨some "chat",none,none,some [⟨some message,finish_reason,none⟩],none,none⟩ .null

def exampleChunks : List (ParseResult ChatResponse) :=
  [exampleChunk ⟨some "Hi",some ((exampleFragments.take 2).map (·.2)),none⟩ none,
    exampleChunk ⟨some "!",some ((exampleFragments.drop 2).map (·.2)),none⟩ (some "tool_calls")]

theorem chat_stream_assembles_two : Assembles exampleFragments (drive_stream (.StreamStart []) exampleChunks
    (machine exampleConfig) .new false) := by
  have addressed : Addressed [] exampleFragments := by
    refine ⟨.first (by simp) (by decide) rfl rfl,.first (by simp) (by decide) rfl rfl,
      .byIndex rfl (rfl : _ = some 0) (by decide),.latest rfl rfl (by decide),trivial⟩
  refine (chat_stream_assembles exampleChunks exampleFragments rfl addressed [] false).2
    (.with_raw .ToolCalls "tool_calls") .default (some [("openai",[])]) ?_
  decide

end Ferrin.OpenAi
