import Ferrin.Realtime.ToolTurn

/-!
When a realtime session requests follow-up responses. As long as a call is
announced only after all earlier responses have had their outputs, every
response leads to one follow-up, at the step that completes it
(`follow_ups_complete`).
-/
namespace Ferrin.Realtime
open List ToolTurn

inductive Action where
  | Event (event : ServerEvent)
  | Output (call_id output : String)

inductive ClientEvent where
  | FunctionCallOutput (call_id : String) (name : Option String) (output : String)
  | ResponseCreate
  deriving DecidableEq

/-- A step of the session, as one. -/
def act (from_str : String → Option JsonValue) (t : ToolTurn) : Action → ToolTurn × List ClientEvent
  | .Event event =>
    let (t,request_response) := t.handle_event from_str event
    (t,if request_response then [.ResponseCreate] else [])
  | .Output call_id output =>
    let item := ClientEvent.FunctionCallOutput call_id (t.name call_id) output
    let (t,request_response) := t.output_submitted call_id
    (t,item :: if request_response then [.ResponseCreate] else [])

def acts (from_str : String → Option JsonValue) : ToolTurn → List Action → ToolTurn × List ClientEvent
  | t,[] => (t,[])
  | t,action :: rest =>
    let (t,sent) := act from_str t action
    let (t,later) := acts from_str t rest
    (t,sent ++ later)

/-! ### What has happened -/

/-- The calls of the responses that are done, those of the response in progress, all calls that were announced, and the
calls whose outputs have been submitted. -/
structure Log where
  responses : List (List String)
  current : List String
  announced : List String
  outputs : List String

namespace Log

def empty : Log := ⟨[],[],[],[]⟩

/-- `counts` tells by its arguments whether a call is one of the response. -/
def next (counts : String → Bool) (l : Log) : Action → Log
  | .Event (.FunctionCallArgumentsDone call_id _ arguments) =>
    { l with
      current := if counts arguments then l.current ++ [call_id] else l.current
      announced := l.announced ++ [call_id] }
  | .Event .ResponseDone => { l with responses := l.responses ++ [l.current],current := [] }
  | .Event .Other => l
  | .Output call_id _ => { l with outputs := l.outputs ++ [call_id] }

def after (counts : String → Bool) (l : Log) (actions : List Action) : Log := actions.foldl (next counts) l

def Complete (l : Log) (calls : List String) : Prop := calls ≠ [] ∧ ∀ id ∈ calls, id ∈ l.outputs

instance (l : Log) (calls : List String) : Decidable (l.Complete calls) := by unfold Complete; infer_instance

def completed (l : Log) : Nat := l.responses.countP fun calls => l.Complete calls

/-- What can happen next: ids are used once, and outputs belong to calls that were announced. -/
def Possible (l : Log) : Action → Prop
  | .Event (.FunctionCallArgumentsDone call_id _ _) => call_id ∉ l.announced
  | .Event _ => True
  | .Output call_id _ => call_id ∈ l.announced

/-- No response waits for outputs when a call of the next one is announced. -/
def InTurn (counts : String → Bool) (l : Log) : Action → Prop
  | .Event (.FunctionCallArgumentsDone _ _ arguments) => counts arguments →
      ∀ calls ∈ l.responses, ∀ id ∈ calls, id ∈ l.outputs
  | _ => True

/-- Every action of a run is taken under a condition on what happened before. -/
def Throughout (counts : String → Bool) (ok : Log → Action → Prop) : Log → List Action → Prop
  | _,[] => True
  | l,action :: rest => ok l action ∧ Throughout counts ok (l.next counts action) rest

end Log

def Log.owed (l : Log) : List (List String) :=
  l.responses.filter fun calls => decide (∃ id ∈ calls, id ∉ l.outputs)

structure Follows (l : Log) (t : ToolTurn) (calls : List String) : Prop where
  members : ∀ id, id ∈ t.in_response ↔ id ∈ calls
  outputs : ∀ id ∈ calls, id ∈ t.submitted ↔ id ∈ l.outputs
  known : ∀ id ∈ t.submitted, id ∈ l.announced
  heard : ∀ id ∈ l.outputs, id ∈ l.announced
  announced : ∀ id ∈ calls, id ∈ l.announced
  stage : (l.owed = [] ∧ t.closed = false ∧ calls = l.current) ∨ (l.owed = [calls] ∧ t.closed = true ∧ l.current = [])

theorem completed_add_owed (l : Log) :
    l.completed + l.owed.length = l.responses.countP fun calls => decide (calls ≠ []) := by
  unfold Log.completed Log.owed
  rw [← countP_eq_length_filter]
  induction l.responses with
  | nil => rfl
  | cons calls _ ih =>
    rw [countP_cons,countP_cons,countP_cons,← ih]
    by_cases none_ : calls = []
    · simp [none_,Log.Complete]
    · by_cases lacking : ∃ id ∈ calls, id ∉ l.outputs
      · have incomplete : ¬ l.Complete calls := fun complete => by
          obtain ⟨id,mem,missing⟩ := lacking
          exact missing (complete.2 id mem)
        simp [none_,lacking,incomplete]
        omega
      · have complete : l.Complete calls := ⟨none_,by simpa using lacking⟩
        simp [none_,lacking,complete]
        omega

theorem maybe_request_response_eq (t : ToolTurn) : t.maybe_request_response =
    if t.closed = true ∧ t.in_response ≠ [] ∧ ∀ id ∈ t.in_response, id ∈ t.submitted then
      ({ t with in_response := [],submitted := [],closed := false },true)
    else (t,false) := by
  unfold maybe_request_response
  by_cases waiting : ¬ t.closed ∨ t.in_response = []
  · rw [if_pos waiting,if_neg]
    rintro ⟨closed,some_,-⟩
    exact waiting.elim (fun open_ => open_ closed) some_
  · rw [if_neg waiting]
    obtain ⟨closed,some_⟩ := not_or.mp waiting
    by_cases all : ∀ id ∈ t.in_response, id ∈ t.submitted
    · rw [if_neg (not_not.mpr all),if_pos ⟨not_not.mp closed,some_,all⟩]
    · rw [if_pos all,if_neg fun due => all due.2.2]

section
variable {counts : String → Bool} {l : Log} {t : ToolTurn} {calls : List String}

theorem owed_done (name : List String) : ({ l with responses := l.responses ++ [name],current := [] } : Log).owed =
    l.owed ++ if ∃ id ∈ name, id ∉ l.outputs then [name] else [] := by
  unfold Log.owed
  rw [filter_append]
  congr 1
  by_cases lacking : ∃ id ∈ name, id ∉ l.outputs
  · rw [if_pos lacking]
    simp [lacking]
  · rw [if_neg lacking]
    simp [lacking]

theorem owed_output (call_id : String) : ({ l with outputs := l.outputs ++ [call_id] } : Log).owed =
    l.owed.filter fun calls => decide (∃ id ∈ calls, id ∉ l.outputs ++ [call_id]) := by
  unfold Log.owed
  rw [filter_filter]
  refine filter_congr fun calls _ => ?_
  by_cases lacking : ∃ id ∈ calls, id ∉ l.outputs ++ [call_id]
  · obtain ⟨id,mem,missing⟩ := lacking
    have before : ∃ id ∈ calls, id ∉ l.outputs := ⟨id,mem,fun known => missing (mem_append_left _ known)⟩
    have after : ∃ id ∈ calls, id ∉ l.outputs ++ [call_id] := ⟨id,mem,missing⟩
    rw [decide_eq_true before,decide_eq_true after]
    rfl
  · rw [decide_eq_false lacking]
    rfl

theorem owed_ne_nil (mem : calls ∈ l.owed) : calls ≠ [] := by
  rintro rfl
  simp [Log.owed] at mem

/-- What a step asks of the log and the turn after it, where `due` tells whether it requests a follow-up. -/
def Kept (l l' : Log) (t' : ToolTurn) (due : Bool) : Prop :=
  (∃ calls, Follows l' t' calls) ∧ l.completed + due.toNat = l'.completed

theorem completed_of_owed {l l' : Log} {due : Bool}
    (responses : (l'.responses.countP fun calls => decide (calls ≠ [])) = l.responses.countP fun calls => decide (calls ≠ []))
    (owed : l'.owed.length + due.toNat = l.owed.length) : l.completed + due.toNat = l'.completed := by
  have before := completed_add_owed l
  have after := completed_add_owed l'
  omega

theorem Follows.announced_step (follows : Follows l t calls) {call_id : String} (name : String) (fresh : call_id ∉ l.announced)
    (served : l.owed = []) : ∃ calls', Follows
      { l with current := l.current ++ [call_id],announced := l.announced ++ [call_id] }
      ((t.record_name call_id name).call_started call_id name) calls' := by
  obtain ⟨idle,closed,rfl⟩ : l.owed = [] ∧ t.closed = false ∧ calls = l.current := by
    rcases follows.stage with stage | ⟨owes,-,-⟩
    · exact stage
    · rw [served] at owes
      cases owes
  refine ⟨l.current ++ [call_id],?_,?_,?_,?_,?_,.inl ⟨idle,closed,rfl⟩⟩
  · intro id
    simp [call_started,record_name,follows.members,or_comm]
  · intro id mem
    rcases List.mem_append.mp mem with old | new
    · exact follows.outputs id old
    · obtain rfl := List.mem_singleton.mp new
      exact iff_of_false (fun submitted => fresh (follows.known _ submitted)) (fun heard => fresh (follows.heard _ heard))
  · intro id mem
    exact mem_append_left _ (follows.known id mem)
  · intro id mem
    exact mem_append_left _ (follows.heard id mem)
  · intro id mem
    rcases List.mem_append.mp mem with old | new
    · exact mem_append_left _ (follows.announced id old)
    · exact mem_append_right _ new

theorem Follows.done_step (follows : Follows l t calls) :
    Kept l { l with responses := l.responses ++ [l.current],current := [] } t.response_done.1 t.response_done.2 := by
  have none_iff : t.in_response = [] ↔ calls = [] := by
    simp only [eq_nil_iff_forall_not_mem,follows.members]
  unfold response_done
  by_cases none_ : calls = []
  · -- The response carried no calls: nothing changes.
    rw [if_pos (none_iff.mpr none_)]
    obtain ⟨idle,closed,current⟩ : l.owed = [] ∧ t.closed = false ∧ calls = l.current := by
      rcases follows.stage with stage | ⟨owes,-,-⟩
      · exact stage
      · exact absurd none_ (owed_ne_nil (by rw [owes]; exact List.mem_singleton.mpr rfl))
    subst none_
    have owed : ({ l with responses := l.responses ++ [l.current],current := [] } : Log).owed = [] := by
      rw [owed_done,idle,← current]
      simp
    refine ⟨⟨[],follows.members,follows.outputs,follows.known,follows.heard,follows.announced,.inl ⟨owed,closed,rfl⟩⟩,?_⟩
    refine completed_of_owed ?_ (by rw [owed,idle]; rfl)
    simp [countP_append,← current]
  · rw [if_neg fun empty => none_ (none_iff.mp empty),maybe_request_response_eq]
    have started : t.in_response ≠ [] := fun empty => none_ (none_iff.mp empty)
    rcases follows.stage with ⟨idle,_,current⟩ | ⟨owes,_,current⟩
    · -- The response in progress is done.
      have all_iff : (∀ id ∈ t.in_response, id ∈ t.submitted) ↔ ∀ id ∈ l.current, id ∈ l.outputs := by
        simp only [follows.members,← current]
        exact forall₂_congr fun id mem => follows.outputs id mem
      have owed := owed_done (l := l) l.current
      rw [idle,nil_append] at owed
      by_cases all : ∀ id ∈ l.current, id ∈ l.outputs
      · have due : (true = true ∧ t.in_response ≠ [] ∧ ∀ id ∈ t.in_response, id ∈ t.submitted) :=
          ⟨rfl,started,all_iff.mpr all⟩
        have served : ¬ ∃ id ∈ l.current, id ∉ l.outputs := by simpa using all
        rw [if_neg served] at owed
        rw [if_pos due]
        refine ⟨⟨[],by simp,by simp,by simp,follows.heard,by simp,.inl ⟨owed,rfl,rfl⟩⟩,?_⟩
        have before := completed_add_owed l
        have after := completed_add_owed { l with responses := l.responses ++ [l.current],current := [] }
        rw [owed] at after
        rw [idle] at before
        rw [countP_append] at after
        have one : [l.current].countP (fun calls => decide (calls ≠ [])) = 1 := by simp [← current,none_]
        simp only [length_nil,Nat.add_zero,Bool.toNat_true] at before after ⊢
        omega
      · have lacking : ∃ id ∈ l.current, id ∉ l.outputs := by simpa using all
        rw [if_pos lacking] at owed
        rw [if_neg fun due => all (all_iff.mp due.2.2)]
        refine ⟨⟨calls,follows.members,follows.outputs,follows.known,follows.heard,follows.announced,
          .inr ⟨by rw [owed,current],rfl,rfl⟩⟩,?_⟩
        have before := completed_add_owed l
        have after := completed_add_owed { l with responses := l.responses ++ [l.current],current := [] }
        rw [owed] at after
        rw [idle] at before
        rw [countP_append] at after
        have one : [l.current].countP (fun calls => decide (calls ≠ [])) = 1 := by simp [← current,none_]
        simp only [length_nil,length_singleton,Bool.toNat_false] at before after ⊢
        omega
    · -- An earlier response is still waiting, and this one carried no calls.
      have lacking : ∃ id ∈ calls, id ∉ l.outputs := by
        have mem : calls ∈ l.owed := by rw [owes]; exact List.mem_singleton.mpr rfl
        simpa using (List.mem_filter.mp mem).2
      have undue : ¬ ∀ id ∈ t.in_response, id ∈ t.submitted := by
        obtain ⟨id,mem,missing⟩ := lacking
        exact fun all => missing ((follows.outputs id mem).mp (all id ((follows.members id).mpr mem)))
      rw [if_neg fun due => undue due.2.2]
      have owed : ({ l with responses := l.responses ++ [l.current],current := [] } : Log).owed = [calls] := by
        rw [owed_done,owes,current]
        simp
      refine ⟨⟨calls,follows.members,follows.outputs,follows.known,follows.heard,follows.announced,.inr ⟨owed,rfl,rfl⟩⟩,?_⟩
      refine completed_of_owed ?_ (by rw [owed,owes]; rfl)
      simp [countP_append,current]

theorem Follows.output_step (follows : Follows l t calls) {call_id : String} (known : call_id ∈ l.announced) :
    Kept l { l with outputs := l.outputs ++ [call_id] } (t.output_submitted call_id).1 (t.output_submitted call_id).2 := by
  have outputs : ∀ id ∈ calls, id ∈ t.submitted.insert call_id ↔ id ∈ l.outputs ++ [call_id] := by
    intro id mem
    simp [follows.outputs id mem,or_comm]
  have submitted : ∀ id ∈ t.submitted.insert call_id, id ∈ l.announced := by
    intro id mem
    rcases List.mem_insert_iff.mp mem with rfl | old
    · exact known
    · exact follows.known id old
  have heard : ∀ id ∈ l.outputs ++ [call_id], id ∈ l.announced := by
    intro id mem
    rcases List.mem_append.mp mem with old | new
    · exact follows.heard id old
    · exact List.mem_singleton.mp new ▸ known
  unfold output_submitted
  rw [maybe_request_response_eq]
  rcases follows.stage with ⟨idle,closed,current⟩ | ⟨owes,closed,current⟩
  · have owed : ({ l with outputs := l.outputs ++ [call_id] } : Log).owed = [] := by rw [owed_output,idle]; rfl
    rw [if_neg (by simp [closed])]
    exact ⟨⟨calls,follows.members,outputs,submitted,heard,follows.announced,.inl ⟨owed,closed,current⟩⟩,
      completed_of_owed rfl (by rw [owed,idle]; rfl)⟩
  · have some_ : calls ≠ [] := owed_ne_nil (by rw [owes]; exact List.mem_singleton.mpr rfl)
    have started : t.in_response ≠ [] := by
      intro empty
      refine some_ (List.eq_nil_iff_forall_not_mem.mpr fun id mem => ?_)
      have listed := (follows.members id).mpr mem
      rw [empty] at listed
      cases listed
    have all_iff : (∀ id ∈ t.in_response, id ∈ t.submitted.insert call_id) ↔ ∀ id ∈ calls, id ∈ l.outputs ++ [call_id] := by
      simp only [follows.members]
      exact forall₂_congr outputs
    have owed := owed_output (l := l) call_id
    rw [owes] at owed
    by_cases all : ∀ id ∈ calls, id ∈ l.outputs ++ [call_id]
    · have served : ({ l with outputs := l.outputs ++ [call_id] } : Log).owed = [] := by
        rw [owed,filter_singleton,decide_eq_false]
        · rfl
        · rintro ⟨id,mem,missing⟩
          exact missing (all id mem)
      rw [if_pos ⟨closed,started,all_iff.mpr all⟩]
      exact ⟨⟨[],by simp,by simp,by simp,heard,by simp,.inl ⟨served,rfl,current.symm⟩⟩,
        completed_of_owed rfl (by rw [served,owes]; rfl)⟩
    · have waiting : ({ l with outputs := l.outputs ++ [call_id] } : Log).owed = [calls] := by
        rw [owed,filter_singleton,decide_eq_true (by simpa using all)]
        rfl
      rw [if_neg fun due => all (all_iff.mp due.2.2)]
      exact ⟨⟨calls,follows.members,outputs,submitted,heard,follows.announced,.inr ⟨waiting,closed,current⟩⟩,
        completed_of_owed rfl (by rw [waiting,owes]; rfl)⟩

/-- The calls that join a response are those whose arguments parse. -/
def joins (from_str : String → Option JsonValue) (arguments : String) : Bool := (from_str arguments).isSome

variable {from_str : String → Option JsonValue}

theorem Follows.act_step (follows : Follows l t calls) {action : Action} (possible : l.Possible action)
    (in_turn : l.InTurn (joins from_str) action) : (∃ calls, Follows (l.next (joins from_str) action) (act from_str t action).1 calls) ∧
      l.completed + (act from_str t action).2.count .ResponseCreate = (l.next (joins from_str) action).completed := by
  have requested (due : Bool) : (if due = true then [ClientEvent.ResponseCreate] else []).count .ResponseCreate = due.toNat := by
    cases due <;> rfl
  cases action with
  | Event event =>
    cases event with
    | FunctionCallArgumentsDone _ name arguments =>
      unfold joins at in_turn ⊢
      simp only [Log.InTurn] at in_turn
      simp only [act,handle_event,Log.next]
      rcases Option.eq_none_or_eq_some (from_str arguments) with parsed | ⟨_,parsed⟩
      · simp only [parsed,Option.isSome_none,Bool.false_eq_true,if_false]
        refine ⟨⟨calls,follows.members,follows.outputs,?_,?_,?_,follows.stage⟩,rfl⟩
        · exact fun id mem => mem_append_left _ (follows.known id mem)
        · exact fun id mem => mem_append_left _ (follows.heard id mem)
        · exact fun id mem => mem_append_left _ (follows.announced id mem)
      · simp only [parsed,Option.isSome_some,if_true] at in_turn ⊢
        refine ⟨follows.announced_step name possible ?_,rfl⟩
        rw [Log.owed,filter_eq_nil_iff]
        intro calls mem
        simpa using in_turn trivial calls mem
    | ResponseDone =>
      obtain ⟨later,counted⟩ := follows.done_step
      refine ⟨later,?_⟩
      rw [act,handle_event]
      exact (congrArg (l.completed + ·) (requested _)).trans counted
    | Other => exact ⟨⟨calls,follows⟩,rfl⟩
  | Output =>
    obtain ⟨later,counted⟩ := follows.output_step possible
    refine ⟨later,?_⟩
    rw [act]
    dsimp only
    rw [count_cons_of_ne (by simp)]
    exact (congrArg (l.completed + ·) (requested _)).trans counted

theorem Follows.acts_run (actions : List Action) : ∀ {l : Log} {t : ToolTurn} {calls : List String}, Follows l t calls →
    Log.Throughout (joins from_str) (fun l action => l.Possible action ∧ l.InTurn (joins from_str) action) l actions →
    l.completed + (acts from_str t actions).2.count .ResponseCreate = (l.after (joins from_str) actions).completed := by
  induction actions with
  | nil => intro l t calls _ _; rfl
  | cons _ _ ih =>
    intro l t calls follows orderly
    obtain ⟨⟨possible,in_turn⟩,later⟩ := orderly
    obtain ⟨⟨_,follows'⟩,counted⟩ := follows.act_step possible in_turn
    rw [acts]
    dsimp only
    rw [count_append,← Nat.add_assoc,counted]
    exact ih follows' later

end

theorem Log.Throughout.take {counts : String → Bool} {ok : Log → Action → Prop} {before after : List Action} :
    ∀ {l : Log}, Log.Throughout counts ok l (before ++ after) → Log.Throughout counts ok l before := by
  induction before with
  | nil => intro l _; trivial
  | cons _ _ ih => exact fun orderly => ⟨orderly.1,ih orderly.2⟩

/-- At every point of a run in which no response waits when a call of the next one is announced, the follow-ups that were
requested are as many as the responses that are complete. -/
theorem follow_ups_complete (from_str : String → Option JsonValue) (actions : List Action)
    (orderly : Log.Throughout (joins from_str) (fun l action => l.Possible action ∧ l.InTurn (joins from_str) action)
      .empty actions) (before : List Action) (earlier : before <+: actions) :
    (acts from_str .default before).2.count .ResponseCreate = (Log.empty.after (joins from_str) before).completed := by
  obtain ⟨after,rfl⟩ := earlier
  have fresh : Follows .empty .default [] :=
    ⟨by simp [ToolTurn.default],by simp,by simp [ToolTurn.default],by simp [Log.empty],by simp,.inl ⟨rfl,rfl,rfl⟩⟩
  have counted := fresh.acts_run before orderly.take
  exact (Nat.zero_add _).symm.trans counted

def turns : List Action :=
  [.Event (.FunctionCallArgumentsDone "a" "weather" "\x7b\x7d"),.Event (.FunctionCallArgumentsDone "b" "time" "\x7b\x7d"),
    .Output "b" "1",.Event .ResponseDone,.Output "a" "2",
    .Event (.FunctionCallArgumentsDone "c" "time" "\x7b\x7d"),.Output "c" "3",.Event .ResponseDone]

theorem follow_ups_complete_turns :
    (acts emptyObject .default turns).2.count .ResponseCreate = (Log.empty.after (joins emptyObject) turns).completed := by
  refine follow_ups_complete emptyObject turns ?_ turns (prefix_refl _)
  simp [turns,Log.Throughout,Log.Possible,Log.InTurn,Log.next,Log.empty,joins,emptyObject]

/-- A response whose only call has arguments that do not parse leads to no follow-up. -/
theorem malformed_call_no_follow_up :
    let actions := [Action.Event (.FunctionCallArgumentsDone "a" "weather" "\x7b"),.Event .ResponseDone,.Output "a" "1"]
    Log.Throughout (fun _ => true) Log.Possible .empty actions ∧
      (acts emptyObject .default actions).2.count .ResponseCreate = 0 ∧
      (Log.empty.after (fun _ => true) actions).completed = 1 := by
  refine ⟨?_,by decide,by decide⟩
  simp [Log.Throughout,Log.Possible,Log.next,Log.empty]

/-- Responses that overlap share one follow-up. -/
example :
    let actions := [Action.Event (.FunctionCallArgumentsDone "a" "weather" "\x7b\x7d"),.Event .ResponseDone,
      .Event (.FunctionCallArgumentsDone "b" "weather" "\x7b\x7d"),.Output "a" "1",.Output "b" "2",.Event .ResponseDone]
    (acts emptyObject .default actions).2.count .ResponseCreate = 1 ∧
      (Log.empty.after (joins emptyObject) actions).completed = 2 := by decide

end Ferrin.Realtime
