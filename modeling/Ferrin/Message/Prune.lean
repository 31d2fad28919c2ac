import Ferrin.Message
import Ferrin.Library.Assoc

/-!
Message pruning: reasoning, tool calls and empty messages are dropped to
control the size of the context.
-/
namespace Ferrin

def UserContent.is_empty : UserContent → Bool
  | .Text text => text.isEmpty
  | .Parts parts => parts.isEmpty

def AssistantContent.is_empty : AssistantContent → Bool
  | .Text text => text.isEmpty
  | .Parts parts => parts.isEmpty

def Message.is_empty : Message → Bool
  | .System content _ => content.isEmpty
  | .User content _ => content.is_empty
  | .Assistant content _ => content.is_empty
  | .Tool content _ => content.isEmpty

namespace Prune

inductive ReasoningPrune where
  | None
  | All
  | BeforeLastMessage

inductive PruneScope where
  | All
  | BeforeLastMessages (n : Nat)

def PruneScope.before_last_message : PruneScope := .BeforeLastMessages 1

/-- A rule removing tool calls, results, approval requests and responses, of
    every tool or of the named ones. -/
structure ToolCallPrune where
  scope : PruneScope
  tools : Option (List ToolName)

inductive EmptyMessages where
  | Keep
  | Remove
  deriving DecidableEq

structure PruneOptions where
  reasoning : ReasoningPrune
  tool_calls : List ToolCallPrune
  empty_messages : EmptyMessages

inductive ToolRef where
  | Call (tool_call_id : ToolCallId) (tool_name : ToolName)
  | Approval (approval_id : ApprovalId) (tool_call_id : Option ToolCallId)
  deriving DecidableEq

def assistant_refs : AssistantPart → Option ToolRef
  | .ToolCall call => some (.Call call.tool_call_id call.tool_name)
  | .ToolResult result => some (.Call result.tool_call_id result.tool_name)
  | .ToolApprovalRequest request => some (.Approval request.approval_id (some request.tool_call_id))
  | _ => none

def tool_refs : ToolPart → Option ToolRef
  | .ToolResult result => some (.Call result.tool_call_id result.tool_name)
  | .ToolApprovalResponse response => some (.Approval response.approval_id none)

def message_refs : Message → List ToolRef
  | .Assistant content _ => content.as_parts.filterMap assistant_refs
  | .Tool content _ => content.filterMap tool_refs
  | .System _ _ | .User _ _ => []

def refs (messages : List Message) : List ToolRef := messages.flatMap message_refs

def ToolRef.as_call : ToolRef → Option (ToolCallId × ToolName)
  | .Call id name => some (id,name)
  | .Approval _ _ => none

def ToolRef.as_approval : ToolRef → Option ApprovalId
  | .Call _ _ => none
  | .Approval id _ => some id

def ToolRef.as_request : ToolRef → Option (ApprovalId × ToolCallId)
  | .Approval id (some call_id) => some (id,call_id)
  | _ => none

structure Kept where
  tool_call_ids : List ToolCallId
  approval_ids : List ApprovalId
  approval_tool_names : List (ApprovalId × ToolName)
  protected_from : Nat

/-- A part outside the protected tail survives only when the rule targets
    specific tools and the part's tool is known and not among them. -/
def rule_keeps (rule : ToolCallPrune) (tool_name : Option ToolName) : Bool :=
  match rule.tools,tool_name with
  | some tools,some name => !tools.contains name
  | _,_ => false

def Kept.keeps_call (kept : Kept) (tool_call_id : ToolCallId) (tool_name : ToolName) (rule : ToolCallPrune) : Bool :=
  kept.tool_call_ids.contains tool_call_id || rule_keeps rule (some tool_name)

def Kept.keeps_approval (kept : Kept) (approval_id : ApprovalId) (rule : ToolCallPrune) : Bool :=
  kept.approval_ids.contains approval_id || rule_keeps rule (kept.approval_tool_names.lookup approval_id)

def ToolCallPrune.protected_from (rule : ToolCallPrune) (length : Nat) : Nat :=
  match rule.scope with
  | .All => length
  | .BeforeLastMessages n => if n = 0 then 0 else length - n

def ToolCallPrune.tail (rule : ToolCallPrune) (messages : List Message) : List Message :=
  messages.drop (rule.protected_from messages.length)

def call_tool_names (messages : List Message) : List (ToolCallId × ToolName) :=
  Assoc.collect ((refs messages).filterMap ToolRef.as_call)

def approval_tool_names (messages : List Message) : List (ApprovalId × ToolName) :=
  Assoc.collect (((refs messages).filterMap ToolRef.as_request).filterMap fun request =>
    ((call_tool_names messages).lookup request.2).map fun name => (request.1,name))

def ToolCallPrune.kept (rule : ToolCallPrune) (messages : List Message) : Kept where
  tool_call_ids := ((refs (rule.tail messages)).filterMap ToolRef.as_call).map (·.1)
  approval_ids := (refs (rule.tail messages)).filterMap ToolRef.as_approval
  approval_tool_names := approval_tool_names messages
  protected_from := rule.protected_from messages.length

def Kept.keeps_assistant (kept : Kept) (rule : ToolCallPrune) : AssistantPart → Bool
  | .ToolCall call => kept.keeps_call call.tool_call_id call.tool_name rule
  | .ToolResult result => kept.keeps_call result.tool_call_id result.tool_name rule
  | .ToolApprovalRequest request => kept.keeps_approval request.approval_id rule
  | _ => true

def Kept.keeps_tool (kept : Kept) (rule : ToolCallPrune) : ToolPart → Bool
  | .ToolResult result => kept.keeps_call result.tool_call_id result.tool_name rule
  | .ToolApprovalResponse response => kept.keeps_approval response.approval_id rule

def retain_parts (assistant : AssistantPart → Bool) (tool : ToolPart → Bool) : Message → Message
  | .Assistant (.Parts parts) options => .Assistant (.Parts (parts.filter assistant)) options
  | .Tool content options => .Tool (content.filter tool) options
  | message => message

def prune_tool_calls (messages : List Message) (rule : ToolCallPrune) : List Message :=
  let kept := rule.kept messages
  (messages.take kept.protected_from).map (retain_parts (kept.keeps_assistant rule) (kept.keeps_tool rule)) ++
    messages.drop kept.protected_from

def AssistantPart.is_reasoning : AssistantPart → Bool
  | .Reasoning _ => true
  | _ => false

def drop_reasoning : Message → Message := retain_parts (fun part => !AssistantPart.is_reasoning part) fun _ => true

def prune_reasoning (messages : List Message) (reasoning : ReasoningPrune) : List Message :=
  let last_index := messages.length - 1
  messages.mapIdx fun index message =>
    let keep := match reasoning with
      | .None => true
      | .All => false
      | .BeforeLastMessage => index == last_index
    if keep then message else drop_reasoning message

def remove_empty (empty_messages : EmptyMessages) (messages : List Message) : List Message :=
  if empty_messages = .Remove then messages.filter (!·.is_empty) else messages

def prune (messages : List Message) (options : PruneOptions) : List Message :=
  remove_empty options.empty_messages
    (options.tool_calls.foldl prune_tool_calls (prune_reasoning messages options.reasoning))

end Prune
end Ferrin
