import Ferrin.GenerateText.Tools
import Ferrin.Library.TaskPool

/-!
The tools of a step run in a bounded pool. Whatever the order in which they
end, their outputs come back in call order.
-/
namespace Ferrin.GenerateText
open Ferrin.TaskPool List Pool

structure QueuedTask where
  index : Nat
  call : ParsedToolCall
  tool : Tool

def queue (ctx : LoopContext) (calls : List ParsedToolCall) : List QueuedTask :=
  calls.zipIdx.filterMap fun (call,index) => (executable ctx call).map fun tool => ⟨index,call,tool⟩

structure Execution where
  pool : Pool QueuedTask
  results : List (Option StepContent)

section
variable (messages : List Message) (environment : ToolEnvironment) (duration_ms : ToolCallId → Nat)

def QueuedTask.outcome (task : QueuedTask) : Except Error StepContent :=
  tool_task messages environment duration_ms task.call task.tool

def spawn_next (pool : Pool QueuedTask) : Except Error (Pool QueuedTask) :=
  match pool.pending with
  | [] => .ok pool
  | task :: _ => do
    let _ ← tool_context task.tool task.call.tool_call_id task.call.tool_name messages environment
    return pool.spawn

def fill_pool : Nat → Pool QueuedTask → Except Error (Pool QueuedTask)
  | 0,pool => .ok pool
  | room + 1,pool => if pool.pending.isEmpty then .ok pool else do fill_pool room (← spawn_next messages environment pool)

def Execution.join (e : Execution) (place : Nat) : Option (Except Error Execution) :=
  e.pool.running[place]?.map fun task =>
    match task.outcome messages environment duration_ms with
    | .error error => .error error
    | .ok content => do
      let pool ← spawn_next messages environment (e.pool.remove place task)
      return ⟨pool,e.results.set task.index (some content)⟩

def Execution.join_all (e : Execution) : List Nat → Option (Except Error (List StepContent))
  | [] => if e.pool.is_idle then some (.ok (e.results.filterMap id)) else none
  | place :: order =>
    match e.join messages environment duration_ms place with
    | none => none
    | some (.error error) => some (.error error)
    | some (.ok next) => next.join_all order

def start_tools (ctx : LoopContext) (max : Nat) (calls : List ParsedToolCall) : Except Error Execution := do
  let pool ← fill_pool messages environment max (.start (queue ctx calls))
  return ⟨pool,calls.map fun _ => none⟩

def execute_tools_in_order (ctx : LoopContext) (max : Nat) (calls : List ParsedToolCall) (order : List Nat) :
    Option (Except Error (List StepContent)) :=
  match start_tools messages environment ctx max calls with
  | .error error => some (.error error)
  | .ok e => e.join_all messages environment duration_ms order

/-- The states that the execution goes through. -/
inductive Execution.Reached (ctx : LoopContext) (max : Nat) (calls : List ParsedToolCall) : Execution → Prop where
  | started {e : Execution} (filled : start_tools messages environment ctx max calls = .ok e) : Reached ctx max calls e
  | joined {e next : Execution} {place : Nat} (before : Reached ctx max calls e)
      (took : e.join messages environment duration_ms place = some (.ok next)) : Reached ctx max calls next

end

/-! ### The tasks of a step -/

section
variable {ctx : LoopContext} {messages : List Message} {environment : ToolEnvironment} {duration_ms : ToolCallId → Nat}
  {max : Nat} {calls : List ParsedToolCall}

variable {task : QueuedTask}

theorem mem_queue :
    task ∈ queue ctx calls ↔ calls[task.index]? = some task.call ∧ executable ctx task.call = some task.tool := by
  simp only [queue,mem_filterMap,Option.map_eq_some_iff,Prod.exists,mem_zipIdx_iff_getElem?]
  constructor
  · rintro ⟨call,index,here,tool,found,rfl⟩
    exact ⟨here,found⟩
  · rintro ⟨here,found⟩
    exact ⟨task.call,task.index,here,task.tool,found,rfl⟩

theorem map_queue (ctx : LoopContext) (calls : List ParsedToolCall) :
    (queue ctx calls).map (fun task => (task.call,task.tool)) = tasks ctx calls := by
  unfold queue tasks
  conv_rhs => rw [← zipIdx_map_fst 0 calls,filterMap_map]
  rw [map_filterMap]
  refine filterMap_congr fun entry _ => ?_
  simp only [Function.comp_apply,Option.map_map]
  rfl

/-- The tools come to an end: their contexts are valid and none is cancelled. -/
def Completes (messages : List Message) (environment : ToolEnvironment) (duration_ms : ToolCallId → Nat)
    (ctx : LoopContext) (calls : List ParsedToolCall) : Prop :=
  ∀ task ∈ queue ctx calls, ∃ content, task.outcome messages environment duration_ms = .ok content

variable {content : StepContent}

theorem context_of_outcome (ran : task.outcome messages environment duration_ms = .ok content) :
    ∃ tool_ctx, tool_context task.tool task.call.tool_call_id task.call.tool_name messages environment = .ok tool_ctx := by
  obtain ⟨tool_ctx,valid,_⟩ := Result.bind_ok.mp ran
  exact ⟨tool_ctx,valid⟩

variable {pool : Pool QueuedTask}

theorem spawn_next_eq
    (valid : ∀ task ∈ pool.pending, ∃ content, task.outcome messages environment duration_ms = .ok content) :
    spawn_next messages environment pool = .ok pool.spawn := by
  unfold spawn_next
  split
  case h_1 none_left => rw [spawn,none_left]
  case h_2 task rest next =>
    obtain ⟨_,ran⟩ := valid task (by simp [next])
    obtain ⟨_,context⟩ := context_of_outcome ran
    rw [context]
    rfl

theorem spawn_of_pending_nil (nothing : pool.pending = []) : pool.spawn = pool := by
  rw [spawn,nothing]

theorem fill_of_pending_nil (nothing : pool.pending = []) (room : Nat) : pool.fill room = pool := by
  induction room with
  | zero => rfl
  | succ _ ih => rw [fill,spawn_of_pending_nil nothing,ih]

theorem pending_spawn_subset (mem : task ∈ pool.spawn.pending) : task ∈ pool.pending := by
  unfold spawn at mem
  split at mem
  case h_1 => exact mem
  case h_2 first rest next =>
    rw [next]
    exact mem_cons_of_mem first mem

theorem fill_pool_eq (room : Nat)
    (valid : ∀ task ∈ pool.pending, ∃ content, task.outcome messages environment duration_ms = .ok content) :
    fill_pool messages environment room pool = .ok (pool.fill room) := by
  induction room generalizing pool with
  | zero => rfl
  | succ _ ih =>
    rw [fill_pool]
    split_ifs with nothing
    · rw [fill_of_pending_nil (List.isEmpty_iff.mp nothing)]
    · rw [spawn_next_eq valid]
      exact ih fun task mem => valid task (pending_spawn_subset mem)

def slot (messages : List Message) (environment : ToolEnvironment) (duration_ms : ToolCallId → Nat) (ctx : LoopContext)
    (done : List Nat) (entry : ParsedToolCall × Nat) : Option StepContent :=
  (executable ctx entry.1).bind fun tool =>
    if entry.2 ∈ done then (QueuedTask.outcome messages environment duration_ms ⟨entry.2,entry.1,tool⟩).toOption
    else none

structure Execution.Tidy (messages : List Message) (environment : ToolEnvironment) (duration_ms : ToolCallId → Nat)
    (ctx : LoopContext) (max : Nat) (calls : List ParsedToolCall) (e : Execution) : Prop where
  sound : Sound max (queue ctx calls) e.pool
  results : e.results = calls.zipIdx.map (slot messages environment duration_ms ctx (e.pool.finished.map (·.index)))

theorem slot_nil (entry : ParsedToolCall × Nat) : slot messages environment duration_ms ctx [] entry = none := by
  unfold slot
  cases executable ctx entry.1 <;> simp

theorem set_slots (queued : task ∈ queue ctx calls)
    (ran : task.outcome messages environment duration_ms = .ok content) (done : List Nat) :
    (calls.zipIdx.map (slot messages environment duration_ms ctx done)).set task.index (some content) =
      calls.zipIdx.map (slot messages environment duration_ms ctx (done ++ [task.index])) := by
  obtain ⟨here,found⟩ := mem_queue.mp queued
  refine ext_getElem? fun index => ?_
  rw [getElem?_set]
  split_ifs with same inside
  · subst same
    simp [getElem?_zipIdx,here,slot,found,ran,Except.toOption]
  · subst same
    obtain ⟨bound,_⟩ := List.getElem?_eq_some_iff.mp here
    exact absurd (by simpa using bound) inside
  · have other : (index ∈ done ++ [task.index]) ↔ index ∈ done := by simp [Ne.symm same]
    cases at_index : calls[index]? with
    | none => simp [getElem?_zipIdx,at_index]
    | some => simp [getElem?_zipIdx,at_index,slot,other]

variable {max : Nat} {p : Pool QueuedTask} {tasks : List QueuedTask}

theorem running_subset (sound : Sound max tasks p) (mem : task ∈ p.running) : task ∈ tasks := by
  obtain ⟨_,same,perm⟩ := sound.once
  rw [← same]
  exact mem_append_left _ (perm.mem_iff.mpr (mem_append_right _ mem))

theorem pending_subset (sound : Sound max tasks p) (mem : task ∈ p.pending) : task ∈ tasks := by
  obtain ⟨_,same,_⟩ := sound.once
  rw [← same]
  exact mem_append_right _ mem

theorem start_tools_eq (completes : Completes messages environment duration_ms ctx calls) (max : Nat) :
    start_tools messages environment ctx max calls =
      .ok ⟨(Pool.start (queue ctx calls)).fill max,calls.map fun _ => none⟩ := by
  have valid : ∀ task ∈ (start (queue ctx calls)).pending,
      ∃ content, task.outcome messages environment duration_ms = .ok content := completes
  rw [start_tools,fill_pool_eq max valid]
  rfl

theorem tidy_start (max : Nat) : Execution.Tidy messages environment duration_ms ctx max calls
    ⟨(Pool.start (queue ctx calls)).fill max,calls.map fun _ => none⟩ := by
  have finished (room : Nat) (p : Pool QueuedTask) : (p.fill room).finished = p.finished := by
    induction room generalizing p with
    | zero => rfl
    | succ _ ih =>
      rw [fill,ih,spawn]
      split <;> rfl
  refine ⟨(filling_start max _).fill,?_⟩
  simp only [finished,start,map_nil]
  rw [map_congr_left fun entry _ => slot_nil entry,map_const',map_const',length_zipIdx]

variable {e : Execution} {place : Nat}

section
variable (completes : Completes messages environment duration_ms ctx calls)
include completes

theorem Execution.Tidy.join
    (tidy : e.Tidy messages environment duration_ms ctx max calls) (here : e.pool.running[place]? = some task) :
    ∃ content, task.outcome messages environment duration_ms = .ok content ∧
      e.join messages environment duration_ms place =
        some (.ok ⟨(e.pool.remove place task).spawn,e.results.set task.index (some content)⟩) ∧
      Execution.Tidy messages environment duration_ms ctx max calls
        ⟨(e.pool.remove place task).spawn,e.results.set task.index (some content)⟩ := by
  have queued := running_subset tidy.sound (mem_of_getElem? here)
  obtain ⟨content,ran⟩ := completes task queued
  have valid : ∀ other ∈ (e.pool.remove place task).pending,
      ∃ content, other.outcome messages environment duration_ms = .ok content :=
    fun other mem => completes other (pending_subset tidy.sound mem)
  refine ⟨content,ran,?_,tidy.sound.remove_spawn here,?_⟩
  · simp only [Execution.join,here,Option.map_some,ran,spawn_next_eq valid]
    rfl
  · have finished : (e.pool.remove place task).spawn.finished = e.pool.finished ++ [task] := by
      unfold spawn
      split <;> rfl
    rw [tidy.results,set_slots queued ran,finished]
    simp

theorem tidy_reached
    (reached : e.Reached messages environment duration_ms ctx max calls) :
    e.Tidy messages environment duration_ms ctx max calls := by
  induction reached with
  | started filled =>
    rw [start_tools_eq completes] at filled
    cases filled
    exact tidy_start max
  | @joined e next place before took ih =>
    cases here : e.pool.running[place]? with
    | none => simp [Execution.join,here] at took
    | some =>
      obtain ⟨_,_,joined,tidy⟩ := ih.join completes here
      rw [joined] at took
      cases took
      exact tidy

theorem outputs_of_idle (room : 0 < max)
    (tidy : e.Tidy messages environment duration_ms ctx max calls) (idle : e.pool.is_idle) :
    execute_tools ctx messages environment duration_ms calls = .ok (e.results.filterMap id) := by
  obtain ⟨_,all⟩ := tidy.sound.idle room idle
  have filled : e.results = calls.zipIdx.map fun entry =>
      (executable ctx entry.1).bind fun tool => (tool_task messages environment duration_ms entry.1 tool).toOption := by
    rw [tidy.results]
    refine map_congr_left fun entry mem => ?_
    unfold slot
    cases found : executable ctx entry.1 with
    | none => rfl
    | some tool =>
      have queued : (⟨entry.2,entry.1,tool⟩ : QueuedTask) ∈ queue ctx calls :=
        mem_queue.mpr ⟨List.mem_zipIdx_iff_getElem?.mp mem,found⟩
      have done : entry.2 ∈ e.pool.finished.map (·.index) :=
        List.mem_map.mpr ⟨_,all.mem_iff.mpr queued,rfl⟩
      simp only [Option.bind_some,if_pos done,QueuedTask.outcome]
  have each : ∀ pair ∈ tasks ctx calls, ∃ content, tool_task messages environment duration_ms pair.1 pair.2 = .ok content := by
    intro pair mem
    rw [← map_queue] at mem
    obtain ⟨task,queued,rfl⟩ := List.mem_map.mp mem
    exact completes task queued
  unfold execute_tools
  rw [Result.mapM_eq_toOption each,filled,tasks]
  congr 1
  rw [filterMap_map,filterMap_filterMap]
  conv_lhs => rw [← zipIdx_map_fst 0 calls,filterMap_map]
  refine filterMap_congr fun entry _ => ?_
  simp only [Function.comp_apply,id_eq]
  cases executable ctx entry.1 <;> rfl

end

theorem left_of_join
    (here : pool.running[place]? = some task) : (pool.remove place task).spawn.left + 1 = pool.left := by
  rw [left_spawn,left_remove here]

theorem left_of_idle (sound : Sound max (queue ctx calls) pool) (room : 0 < max)
    (idle : pool.is_idle) : pool.left = 0 := by
  rw [left,(sound.idle room idle).1,List.isEmpty_iff.mp idle]
  rfl

variable {order : List Nat} {result : Except Error (List StepContent)}

section
variable (completes : Completes messages environment duration_ms ctx calls)
include completes

theorem Execution.Tidy.join_all (room : 0 < max)
    (tidy : e.Tidy messages environment duration_ms ctx max calls)
    (done : e.join_all messages environment duration_ms order = some result) :
    result = execute_tools ctx messages environment duration_ms calls ∧ order.length = e.pool.left := by
  induction order generalizing e with
  | nil =>
    rw [Execution.join_all] at done
    split_ifs at done with idle
    cases done
    exact ⟨(outputs_of_idle completes room tidy idle).symm,(left_of_idle tidy.sound room idle).symm⟩
  | cons place _ ih =>
    rw [Execution.join_all] at done
    cases here : e.pool.running[place]? with
    | none => simp [Execution.join,here] at done
    | some =>
      obtain ⟨_,_,joined,next⟩ := tidy.join completes here
      rw [joined] at done
      obtain ⟨same,count⟩ := ih next done
      have fewer := left_of_join here
      refine ⟨same,?_⟩
      simp only at count
      rw [length_cons]
      omega

theorem Execution.Tidy.ends (room : 0 < max)
    (tidy : e.Tidy messages environment duration_ms ctx max calls) :
    ∃ order result, e.join_all messages environment duration_ms order = some result := by
  induction count : e.pool.left generalizing e with
  | zero =>
    have idle : e.pool.is_idle := by
      unfold left at count
      exact List.isEmpty_iff_length_eq_zero.mpr (by omega)
    exact ⟨[],_,by rw [Execution.join_all,if_pos idle]⟩
  | succ _ ih =>
    cases running : e.pool.running with
    | nil =>
      have idle : e.pool.is_idle := by simp [is_idle,running]
      have none_left := left_of_idle tidy.sound room idle
      omega
    | cons task =>
      have here : e.pool.running[0]? = some task := by rw [running]; rfl
      obtain ⟨_,_,joined,next⟩ := tidy.join completes here
      obtain ⟨order,result,done⟩ := ih next (by have fewer := left_of_join here; simp only; omega)
      exact ⟨0 :: order,result,by rw [Execution.join_all,joined]; exact done⟩

theorem execute_tools_in_order_eq (room : 0 < max)
    (done : execute_tools_in_order messages environment duration_ms ctx max calls order = some result) :
    result = execute_tools ctx messages environment duration_ms calls ∧ order.length = (queue ctx calls).length := by
  rw [execute_tools_in_order,start_tools_eq completes] at done
  obtain ⟨same,count⟩ := (tidy_start max).join_all completes room done
  refine ⟨same,count.trans ?_⟩
  rw [left_fill]
  simp [left,start]

theorem execute_tools_in_order_ends (room : 0 < max) :
    ∃ order result, execute_tools_in_order messages environment duration_ms ctx max calls order = some result := by
  unfold execute_tools_in_order
  rw [start_tools_eq completes]
  exact (tidy_start max).ends completes room

end

end

end Ferrin.GenerateText
