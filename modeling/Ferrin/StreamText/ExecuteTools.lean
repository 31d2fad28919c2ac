import Ferrin.GenerateText.ExecuteTools
import Ferrin.GenerateText.OutputOrder
import Ferrin.StreamText.StageLedger

/-!
The tools of a streamed step run in a bounded pool while what they yield is
forwarded. The order in which they end shows in the events and not in the
messages of the step.
-/
namespace Ferrin.StreamText
open Ferrin.GenerateText Ferrin.TaskPool List Pool

/-- The pool with what its tools still yield on their way, by the place of their
    calls, the channel of the values on the way, and what has been sent. -/
structure Forwarding where
  pool : Pool QueuedTask
  values : List (List JsonValue)
  progress : List StepContent
  sent : List StepContent
  outputs : Nat

/-- A tool yields a value into the channel, a value leaves the channel, or a
    task that yields no more is joined. -/
inductive Turn where
  | yields (place : Nat)
  | forward
  | join (place : Nat)

section
variable (inputs : StepInputs) (duration_ms : ToolCallId → Nat)

def Forwarding.turn (f : Forwarding) : Turn → Option (Except Error Forwarding)
  | .yields place => f.pool.running[place]?.bind fun task =>
    match f.values.getD task.index [] with
    | [] => none
    | value :: values => some (.ok {f with
        values := f.values.set task.index values
        progress := f.progress ++ [preliminary_result task.call value]})
  | .forward =>
    match f.progress with
    | [] => none
    | content :: progress => some (.ok {f with progress, sent := f.sent ++ [content]})
  | .join place => f.pool.running[place]?.bind fun task =>
    match f.values.getD task.index [] with
    | _ :: _ => none
    | [] => some (match task.outcome inputs.messages inputs.environment duration_ms with
      | .error error => .error error
      | .ok content => do
        let pool ← spawn_next inputs.messages inputs.environment (f.pool.remove place task)
        return {f with pool, sent := f.sent ++ [content], outputs := f.outputs + 1})

def Forwarding.turns (f : Forwarding) : List Turn → Option (Except Error (List StepContent × Nat))
  | [] => if f.pool.is_idle && f.progress.isEmpty then some (.ok (f.sent,f.outputs)) else none
  | turn :: rest =>
    match f.turn inputs duration_ms turn with
    | none => none
    | some (.error error) => some (.error error)
    | some (.ok next) => next.turns rest

def start_forwarding (ctx : LoopContext) (max : Nat) (calls : List ParsedToolCall) : Except Error Forwarding := do
  let pool ← fill_pool inputs.messages inputs.environment max (.start (queue ctx calls))
  let values := calls.map fun call =>
    match executable ctx call with
    | some tool => preliminary_values inputs.messages inputs.environment call tool
    | none => []
  return ⟨pool,values,[],[],0⟩

def execute_tools_in_turns (ctx : LoopContext) (max : Nat) (calls : List ParsedToolCall) (turns : List Turn) :
    Option (Except Error (List StepContent × Nat)) :=
  match start_forwarding inputs ctx max calls with
  | .error error => some (.error error)
  | .ok f => f.turns inputs duration_ms turns

inductive Forwarding.Reached (ctx : LoopContext) (max : Nat) (calls : List ParsedToolCall) : Forwarding → Prop where
  | started {f : Forwarding} (filled : start_forwarding inputs ctx max calls = .ok f) : Reached ctx max calls f
  | turned {f next : Forwarding} {turn : Turn} (before : Reached ctx max calls f)
      (took : f.turn inputs duration_ms turn = some (.ok next)) : Reached ctx max calls next

end

section
variable {ctx : LoopContext} {inputs : StepInputs} {duration_ms : ToolCallId → Nat} {max : Nat}
  {calls : List ParsedToolCall}

/-- The last results sent so far are those of the finished tasks, in the order of their ends. -/
structure Forwarding.Kept (inputs : StepInputs) (duration_ms : ToolCallId → Nat) (ctx : LoopContext) (max : Nat)
    (calls : List ParsedToolCall) (f : Forwarding) : Prop where
  sound : Sound max (queue ctx calls) f.pool
  progress : ∀ content ∈ f.progress, isPreliminary content
  finals : (f.sent.filter (!isPreliminary ·)).map Except.ok =
    f.pool.finished.map (QueuedTask.outcome inputs.messages inputs.environment duration_ms)
  count : f.outputs = f.pool.finished.length

theorem final_of_outcome {task : QueuedTask} {content : StepContent}
    (ran : task.outcome inputs.messages inputs.environment duration_ms = .ok content) : isPreliminary content = false := by
  obtain ⟨_,_,done⟩ := Result.bind_ok.mp ran
  exact (run_tool_call_final done).1

theorem finished_spawn (pool : Pool QueuedTask) : pool.spawn.finished = pool.finished := by
  unfold Pool.spawn
  split <;> rfl

theorem finished_fill (room : Nat) (pool : Pool QueuedTask) : (pool.fill room).finished = pool.finished := by
  induction room generalizing pool with
  | zero => rfl
  | succ _ ih => exact (ih pool.spawn).trans (finished_spawn pool)

theorem ends_of_turn {f next : Forwarding} {turn : Turn} (took : f.turn inputs duration_ms turn = some (.ok next))
    (ends : ∃ turns result, next.turns inputs duration_ms turns = some result) :
    ∃ turns result, f.turns inputs duration_ms turns = some result := by
  obtain ⟨turns,result,done⟩ := ends
  exact ⟨turn :: turns,result,by rw [Forwarding.turns,took]; exact done⟩

variable (completes : Completes inputs.messages inputs.environment duration_ms ctx calls)
include completes

theorem start_forwarding_ok (max : Nat) : ∃ f, start_forwarding inputs ctx max calls = .ok f ∧
    f.Kept inputs duration_ms ctx max calls ∧ f.pool.left = (queue ctx calls).length := by
  have valid : ∀ task ∈ (start (queue ctx calls)).pending,
      ∃ content, task.outcome inputs.messages inputs.environment duration_ms = .ok content := completes
  refine ⟨_,by rw [start_forwarding,fill_pool_eq max valid]; rfl,⟨(filling_start max _).fill,by simp,?_,?_⟩,?_⟩
  · simp [finished_fill,start]
  · simp [finished_fill,start]
  · rw [left_fill]
    simp [left,start]

theorem Forwarding.Kept.turn {f : Forwarding} (kept : f.Kept inputs duration_ms ctx max calls) {turn : Turn}
    {result : Except Error Forwarding} (took : f.turn inputs duration_ms turn = some result) :
    ∃ next, result = .ok next ∧ next.Kept inputs duration_ms ctx max calls := by
  cases turn with
  | yields =>
    obtain ⟨task,here,rest⟩ := Option.bind_eq_some_iff.mp took
    split at rest
    case h_1 => cases rest
    case h_2 value values next =>
      cases rest
      refine ⟨_,rfl,kept.sound,fun content mem => ?_,kept.finals,kept.count⟩
      rcases List.mem_append.mp mem with before | last
      · exact kept.progress content before
      · cases List.mem_singleton.mp last
        rfl
  | forward =>
    unfold Forwarding.turn at took
    dsimp only at took
    split at took
    case h_1 => cases took
    case h_2 content progress next =>
      cases took
      have on_the_way := kept.progress content (by simp [next])
      refine ⟨_,rfl,kept.sound,fun other mem => kept.progress other (by simp [next,mem]),?_,kept.count⟩
      simpa [on_the_way] using kept.finals
  | join place =>
    obtain ⟨task,here,rest⟩ := Option.bind_eq_some_iff.mp took
    split at rest
    case h_1 => cases rest
    case h_2 =>
      have queued := running_subset kept.sound (mem_of_getElem? here)
      obtain ⟨content,ran⟩ := completes task queued
      have valid : ∀ other ∈ (f.pool.remove place task).pending,
          ∃ content, other.outcome inputs.messages inputs.environment duration_ms = .ok content :=
        fun other mem => completes other (pending_subset kept.sound mem)
      rw [ran] at rest
      simp only [spawn_next_eq valid] at rest
      cases rest
      refine ⟨_,rfl,kept.sound.remove_spawn here,kept.progress,?_,?_⟩
      · have last : isPreliminary content = false := final_of_outcome ran
        simp [finished_spawn,remove,last,ran,kept.finals]
      · simp [finished_spawn,remove,kept.count]

theorem kept_reached {f : Forwarding} (reached : f.Reached inputs duration_ms ctx max calls) :
    f.Kept inputs duration_ms ctx max calls := by
  induction reached with
  | started filled =>
    obtain ⟨f,same,kept,_⟩ := start_forwarding_ok completes max
    rw [same] at filled
    cases filled
    exact kept
  | turned _ took ih =>
    obtain ⟨_,same,kept⟩ := ih.turn completes took
    cases same
    exact kept

theorem execute_tools_ok : ∃ outputs, execute_tools ctx inputs.messages inputs.environment duration_ms calls = .ok outputs ∧
    (queue ctx calls).map (QueuedTask.outcome inputs.messages inputs.environment duration_ms) = outputs.map Except.ok := by
  have each : ∀ pair ∈ tasks ctx calls,
      ∃ content, tool_task inputs.messages inputs.environment duration_ms pair.1 pair.2 = .ok content := by
    intro pair mem
    rw [← map_queue] at mem
    obtain ⟨task,queued,rfl⟩ := List.mem_map.mp mem
    exact completes task queued
  obtain ⟨outputs,ran⟩ := Result.mapM_ok_of_all each
  refine ⟨outputs,ran,?_⟩
  rw [← Result.mapM_ok_map.mp ran,← map_queue,map_map]
  rfl

theorem finals_of_idle (room : 0 < max) {f : Forwarding} (kept : f.Kept inputs duration_ms ctx max calls)
    (idle : f.pool.is_idle) : f.outputs = (queue ctx calls).length ∧
      ∃ outputs, execute_tools ctx inputs.messages inputs.environment duration_ms calls = .ok outputs ∧
        (f.sent.filter (!isPreliminary ·)).Perm outputs := by
  obtain ⟨_,all⟩ := kept.sound.idle room idle
  obtain ⟨outputs,ran,same⟩ := execute_tools_ok completes
  refine ⟨kept.count.trans all.length_eq,outputs,ran,?_⟩
  have outcomes := all.map (QueuedTask.outcome inputs.messages inputs.environment duration_ms)
  rw [← kept.finals,same] at outcomes
  exact (map_perm_map_iff fun _ _ same => Except.ok.inj same).mp outcomes

theorem Forwarding.Kept.turns (room : 0 < max) {f : Forwarding} (kept : f.Kept inputs duration_ms ctx max calls)
    {turns : List Turn} {result : Except Error (List StepContent × Nat)}
    (done : f.turns inputs duration_ms turns = some result) :
    ∃ sent outputs, result = .ok (sent,(queue ctx calls).length) ∧
      execute_tools ctx inputs.messages inputs.environment duration_ms calls = .ok outputs ∧
      (sent.filter (!isPreliminary ·)).Perm outputs := by
  induction turns generalizing f with
  | nil =>
    rw [Forwarding.turns] at done
    split_ifs at done with ended
    cases done
    obtain ⟨count,outputs,ran,perm⟩ := finals_of_idle completes room kept ((Bool.and_eq_true _ _).mp ended).1
    exact ⟨f.sent,outputs,by rw [count],ran,perm⟩
  | cons turn _ ih =>
    rw [Forwarding.turns] at done
    cases took : f.turn inputs duration_ms turn with
    | none => simp [took] at done
    | some =>
      obtain ⟨_,rfl,still⟩ := kept.turn completes took
      rw [took] at done
      exact ih still done

theorem Forwarding.Kept.ends (room : 0 < max) {f : Forwarding} (kept : f.Kept inputs duration_ms ctx max calls) :
    ∃ turns result, f.turns inputs duration_ms turns = some result := by
  induction count : f.pool.left generalizing f with
  | zero =>
    have idle : f.pool.is_idle := by
      unfold left at count
      exact List.isEmpty_iff_length_eq_zero.mpr (by omega)
    induction waiting : f.progress generalizing f with
    | nil => exact ⟨[],_,by rw [Forwarding.turns,if_pos (by simp [idle,waiting])]⟩
    | cons content progress ih =>
      have took : f.turn inputs duration_ms .forward = some (.ok {f with progress, sent := f.sent ++ [content]}) := by
        simp only [Forwarding.turn,waiting]
      obtain ⟨next,same,still⟩ := kept.turn completes took
      cases same
      exact ends_of_turn took (ih still count idle rfl)
  | succ _ ih =>
    cases running : f.pool.running with
    | nil =>
      have idle : f.pool.is_idle := by simp [is_idle,running]
      have none_left := left_of_idle kept.sound room idle
      omega
    | cons task =>
      have here : f.pool.running[0]? = some task := by rw [running]; rfl
      induction yields : f.values.getD task.index [] generalizing f with
      | nil =>
        obtain ⟨content,ran⟩ := completes task (running_subset kept.sound (mem_of_getElem? here))
        have valid : ∀ other ∈ (f.pool.remove 0 task).pending,
            ∃ content, other.outcome inputs.messages inputs.environment duration_ms = .ok content :=
          fun other mem => completes other (pending_subset kept.sound mem)
        have took : f.turn inputs duration_ms (.join 0) = some (.ok {f with
            pool := (f.pool.remove 0 task).spawn, sent := f.sent ++ [content], outputs := f.outputs + 1}) := by
          simp only [Forwarding.turn,here,Option.bind_some,yields,ran,spawn_next_eq valid]
          rfl
        obtain ⟨next,same,still⟩ := kept.turn completes took
        cases same
        refine ends_of_turn took (ih still ?_)
        have fewer := left_of_join here
        simp only
        omega
      | cons value values later =>
        have took : f.turn inputs duration_ms (.yields 0) = some (.ok {f with
            values := f.values.set task.index values
            progress := f.progress ++ [preliminary_result task.call value]}) := by
          simp only [Forwarding.turn,here,Option.bind_some,yields]
        obtain ⟨_,same,still⟩ := kept.turn completes took
        cases same
        refine ends_of_turn took (later still count running here ?_)
        have inside : task.index < f.values.length := by
          by_contra outside
          simp [getD_eq_getElem?_getD,getElem?_eq_none (by omega : f.values.length ≤ task.index)] at yields
        simp [getD_eq_getElem?_getD,inside]

end

/-- Of a queue of tasks each has been started at most once and in call order,
    and at most `max` run. -/
def WithinLimit (max : Nat) (tasks : List QueuedTask) (pool : Pool QueuedTask) : Prop :=
  pool.running.length ≤ max ∧
    ∃ started, started ++ pool.pending = tasks ∧ started.Perm (pool.finished ++ pool.running)

theorem tool_order_immaterial (ctx : LoopContext) (inputs : StepInputs) (duration_ms : ToolCallId → Nat) (max : Nat)
    (calls : List ParsedToolCall) (room : 0 < max)
    (completes : Completes inputs.messages inputs.environment duration_ms ctx calls) :
    ((∀ e, Execution.Reached inputs.messages inputs.environment duration_ms ctx max calls e →
        WithinLimit max (queue ctx calls) e.pool) ∧
      (∀ order result,
        execute_tools_in_order inputs.messages inputs.environment duration_ms ctx max calls order = some result →
        result = execute_tools ctx inputs.messages inputs.environment duration_ms calls ∧
          order.length = (queue ctx calls).length) ∧
      ∃ order result,
        execute_tools_in_order inputs.messages inputs.environment duration_ms ctx max calls order = some result) ∧
    ((∀ f, Forwarding.Reached inputs duration_ms ctx max calls f → WithinLimit max (queue ctx calls) f.pool) ∧
      (∀ turns result, execute_tools_in_turns inputs duration_ms ctx max calls turns = some result →
        ∃ sent outputs, result = .ok (sent,(queue ctx calls).length) ∧
          execute_tools ctx inputs.messages inputs.environment duration_ms calls = .ok outputs ∧
          (sent.filter (!isPreliminary ·)).Perm outputs) ∧
      ∃ turns result, execute_tools_in_turns inputs duration_ms ctx max calls turns = some result) ∧
    ∀ content content' : List StepContent,
      content.filter (!is_client_output ·) = content'.filter (!is_client_output ·) →
      (content.filter is_client_output).Perm (content'.filter is_client_output) →
      (∀ part ∈ content, is_client_output part → ∃ id ∈ tool_call_order content, about part = some id) →
      ((content.filter is_client_output).filterMap about).Nodup → BehindApprovals content → BehindApprovals content' →
      to_response_messages ctx.tools content = to_response_messages ctx.tools content' := by
  refine ⟨⟨fun e reached => ?_,fun order result done => execute_tools_in_order_eq completes room done,
    execute_tools_in_order_ends completes room⟩,⟨fun f reached => ?_,fun turns result done => ?_,?_⟩,
    fun content content' others outputs called distinct behind behind' =>
      to_response_messages_eq ctx.tools others outputs called distinct behind behind'⟩
  · have sound := (tidy_reached completes reached).sound
    exact ⟨sound.bounded,sound.once⟩
  · have sound := (kept_reached completes reached).sound
    exact ⟨sound.bounded,sound.once⟩
  · obtain ⟨f,same,kept,_⟩ := start_forwarding_ok completes max
    rw [execute_tools_in_turns,same] at done
    exact kept.turns completes room done
  · obtain ⟨f,same,kept,_⟩ := start_forwarding_ok completes max
    unfold execute_tools_in_turns
    rw [same]
    exact kept.ends completes room

def shop_and_search : ToolSet := [("shop",plainTool (.string "sold")),("search",plainTool (.string "found"))]
def shop_call : ParsedToolCall := .new "call-1" "shop" .null
def search_call : ParsedToolCall := .new "call-2" "search" .null

def output_of (call : ParsedToolCall) (output : String) : StepContent :=
  .ToolResult ⟨call.tool_call_id,call.tool_name,.null,.string output,false,false,false,some 0,none,none⟩

theorem tool_order_immaterial_shop :
    execute_tools_in_turns (.plain shop_and_search) (fun _ => 0) (.plain shop_and_search none) 2 [shop_call,search_call]
        [.join 1,.join 0] = some (.ok ([output_of search_call "found",output_of shop_call "sold"],2)) ∧
      to_response_messages shop_and_search [.ToolCall shop_call,.ToolCall search_call,output_of search_call "found",
          output_of shop_call "sold"] =
        to_response_messages shop_and_search [.ToolCall shop_call,.ToolCall search_call,output_of shop_call "sold",
          output_of search_call "found"] := by
  have completes : Completes (StepInputs.plain shop_and_search).messages (StepInputs.plain shop_and_search).environment
      (fun _ => 0) (.plain shop_and_search none) [shop_call,search_call] := by
    intro task member
    have queued : queue (.plain shop_and_search none) [shop_call,search_call] =
        [⟨0,shop_call,plainTool (.string "sold")⟩,⟨1,search_call,plainTool (.string "found")⟩] := rfl
    rw [queued] at member
    rcases List.mem_pair.mp member with rfl | rfl
    · exact ⟨_,rfl⟩
    · exact ⟨_,rfl⟩
  refine ⟨rfl,?_⟩
  exact (tool_order_immaterial (.plain shop_and_search none) (.plain shop_and_search) (fun _ => 0) 2
    [shop_call,search_call] (by decide) completes).2.2 _ _ (by decide) (List.Perm.swap ..) (by decide) (by decide)
    (by decide) (by decide)

/-- The messages depend on the order of two outputs of one call id, and on
    whether an output stands before or behind the approval response of its call. -/
theorem tool_order_shows :
    to_response_messages shop_and_search [.ToolCall shop_call,.ToolCall shop_call,output_of shop_call "first",
        output_of shop_call "second"] ≠
      to_response_messages shop_and_search [.ToolCall shop_call,.ToolCall shop_call,output_of shop_call "second",
        output_of shop_call "first"] ∧
    to_response_messages shop_and_search [.ToolCall shop_call,.ToolCall search_call,output_of search_call "found",
        .ToolApprovalResponse ⟨"approval-1",shop_call,true,none,false⟩,output_of shop_call "sold"] ≠
      to_response_messages shop_and_search [.ToolCall shop_call,.ToolCall search_call,output_of shop_call "sold",
        .ToolApprovalResponse ⟨"approval-1",shop_call,true,none,false⟩,output_of search_call "found"] := by
  decide

end Ferrin.StreamText
