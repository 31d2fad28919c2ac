import Ferrin.StreamText.Attempt
import Ferrin.StreamText.Processor

/-!
The streamed step: the model call is read, the queued tools run side by side
while their results are forwarded, and the processor builds the step.
-/
namespace Ferrin.StreamText
open Ferrin.GenerateText

/-- A running tool: the results it still has to forward on the way, and what it comes to. -/
structure Task where
  call : ParsedToolCall
  preliminary : List JsonValue
  outcome : Except Error StepContent

def preliminary_result (call : ParsedToolCall) (output : JsonValue) : StepContent :=
  .ToolResult {
    tool_call_id := call.tool_call_id
    tool_name := call.tool_name
    input := call.input
    output
    provider_executed := false
    dynamic := call.dynamic
    preliminary := true
    execution_ms := none
    tool_metadata := call.tool_metadata
    provider_metadata := call.provider_metadata }

def preliminary_values (messages : List Message) (environment : ToolEnvironment) (call : ParsedToolCall)
    (tool : Tool) : List JsonValue :=
  match tool.execute,tool_context tool call.tool_call_id call.tool_name messages environment with
  | some execute,.ok tool_ctx => (execute call.input tool_ctx).preliminary
  | _,_ => []

def spawn (inputs : StepInputs) (duration_ms : ToolCallId → Nat) (call : ParsedToolCall) (tool : Tool) : Task where
  call := call
  preliminary := preliminary_values inputs.messages inputs.environment call tool
  outcome := tool_task inputs.messages inputs.environment duration_ms call tool

/-- What the forwarding loop can send for its tasks: results on the way in the order of their tool, and the
last one when the tool is done. The tools take turns as they like. -/
inductive Interleaves : List Task → List StepContent → Prop where
  | done : Interleaves [] []
  | progress {before after : List Task} {task : Task} {value : JsonValue} {values : List JsonValue}
      {contents : List StepContent} (next : task.preliminary = value :: values)
      (rest : Interleaves (before ++ { task with preliminary := values } :: after) contents) :
      Interleaves (before ++ task :: after) (preliminary_result task.call value :: contents)
  | joined {before after : List Task} {task : Task} {content : StepContent} {contents : List StepContent}
      (drained : task.preliminary = []) (finished : task.outcome = .ok content)
      (rest : Interleaves (before ++ after) contents) :
      Interleaves (before ++ task :: after) (content :: contents)

/-- One way to run the tools: it sends what the forwarding loop can send, and fails when a tool is cancelled. -/
structure Schedule where
  run : List Task → Except Error (List StepContent)
  sends : ∀ tasks contents, run tasks = .ok contents → Interleaves tasks contents
  completes : ∀ tasks, (∀ task ∈ tasks, ∃ content, task.outcome = .ok content) → ∃ contents, run tasks = .ok contents

theorem Interleaves.ahead {call : ParsedToolCall} {outcome : Except Error StepContent} {content : StepContent}
    {rest : List Task} {contents : List StepContent} (finished : outcome = .ok content)
    (later : Interleaves rest contents) (values : List JsonValue) :
    Interleaves (⟨call,values,outcome⟩ :: rest) (values.map (preliminary_result call) ++ content :: contents) := by
  induction values with
  | nil => exact @Interleaves.joined [] rest ⟨call,[],outcome⟩ _ _ rfl finished later
  | cons value values next => exact @Interleaves.progress [] rest ⟨call,value :: values,outcome⟩ value values _ rfl next

def Schedule.inOrder : Schedule where
  run tasks := tasks.foldr (fun task rest => do
    let content ← task.outcome
    return task.preliminary.map (preliminary_result task.call) ++ content :: (← rest)) (.ok [])
  sends := by
    intro tasks
    induction tasks with
    | nil =>
      intro contents done
      cases done
      exact .done
    | cons task _ ih =>
      intro contents done
      obtain ⟨content,finished,done⟩ := Result.bind_ok.mp done
      obtain ⟨later,more,done⟩ := Result.bind_ok.mp done
      cases done
      exact .ahead finished (ih later more) task.preliminary
  completes := by
    intro tasks
    induction tasks with
    | nil => exact fun _ => ⟨[],rfl⟩
    | cons task _ ih =>
      intro all
      obtain ⟨content,finished⟩ := all task List.mem_cons_self
      obtain ⟨contents,more⟩ := ih fun other member => all other (List.mem_cons_of_mem task member)
      exact ⟨_,Result.bind_ok.mpr ⟨content,finished,Result.bind_ok.mpr ⟨contents,more,rfl⟩⟩⟩

/-- Final outputs are counted, results on the way are not. -/
def isPreliminary : StepContent → Bool
  | .ToolResult result => result.preliminary
  | _ => false

/-- What the streamed step is run with besides the inputs of every step. -/
structure StageContext where
  stream : StreamConfig
  schedule : Schedule
  duration_ms : ToolCallId → Nat
  used_part_ids : List PartId

/-- The step after its model call, whose events are `sent`. The processor starts at the step. -/
def finish_step (ctx : LoopContext) (inputs : StepInputs) (stage : StageContext) (pending_deferred : Finset ToolCallId)
    (sent : List StreamEvent) (result : ModelCallEnd) : Except Error StepResult := do
  let queued := if is_tool_execution_allowed result.finish_reason then tasks ctx result.queued else []
  let outputs ← stage.schedule.run (queued.map fun (call,tool) => spawn inputs stage.duration_ms call tool)
  let pending := track_deferred result.tool_calls result.result_ids ctx.execution_tools pending_deferred
  let p ← Processor.new.process ctx (sent ++ outputs.filterMap content_event ++ [.FinishStep result.finish_reason])
  match p.steps with
  | [step] => return {
      content := step.content
      messages := step.messages
      finish_reason := step.finish_reason
      executed := queued.map (·.1)
      state := {
        client_tool_calls := (client_calls result.tool_calls).length
        client_tool_outputs := result.client_outputs + (outputs.filter (!isPreliminary ·)).length
        denied_approvals := result.denied
        pending_deferred := pending.card }
      pending_deferred := pending }
  | _ => .error .Cancelled

def stream_step (ctx : LoopContext) (inputs : StepInputs) (stage : StageContext) (pending_deferred : Finset ToolCallId)
    (streams : List (List StreamPart)) : Except Error StepResult :=
  match (Attempt.new stage.used_part_ids).read ctx inputs stage.stream false streams with
  | (_,.error error) => .error error
  | (attempt,.ok result) => finish_step ctx inputs stage pending_deferred attempt.sent result

end Ferrin.StreamText
