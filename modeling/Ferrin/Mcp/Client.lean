import Ferrin.Json
import Ferrin.Library.Assoc
import Ferrin.Library.Runs

/-!
The requests of an MCP client: the callers, the reader of the transport and the
closing of the client, each taking its steps in any order.
-/
namespace Ferrin.Mcp

inductive McpError where
  | Transport (message : String)
  | Protocol (message : String)
  | JsonRpc (code : Int) (message : String) (data : Option JsonValue)
  | Timeout (timeout : Nat)
  | Cancelled
  | Closed
  | Unauthorized
  | UnsupportedCapability (capability : String)
  | InvalidArgument (message : String)
  | Url (message : String)
  | OAuth (message : String) (error_code : Option String)
  | Io (message : String)
  | Elicitation (message : String)
  deriving DecidableEq

abbrev Outcome := Except McpError JsonObject

inductive RequestId where
  | Number (number : Int)
  | String (text : String)
  deriving DecidableEq

instance : ToString RequestId where
  toString
    | .Number number => toString number
    | .String text => text

structure JsonRpcErrorObject where
  code : Int
  message : String
  data : Option JsonValue
  deriving DecidableEq

inductive JsonRpcMessage where
  | Response (id : RequestId) (result : JsonObject)
  | Error (id : Option RequestId) (error : JsonRpcErrorObject)
  deriving DecidableEq

inductive TransportEvent where
  | Message (message : JsonRpcMessage)
  | Error (error : McpError)
  | RequestError (id : RequestId) (error : McpError)
  deriving DecidableEq

structure RequestOptions where
  timeout : Option Nat
  max_total_timeout : Option Nat
  deriving DecidableEq

def RequestOptions.effective_timeout (options : RequestOptions) (default : Option Nat) : Option Nat :=
  match options.timeout.or default,options.max_total_timeout with
  | some timeout,some max => some (min timeout max)
  | some timeout,none => some timeout
  | none,max => max

/-- Where the caller of a request stands: past the check that the client is
    open, in the pending map, in the transport's `send`, waiting for the
    receiver, returned, or dropped. -/
inductive Phase where
  | Checked
  | Registered
  | Sending
  | Waiting
  | Done (outcome : Outcome)
  | Dropped
  deriving DecidableEq

abbrev Ticket := Nat

structure Request where
  phase : Phase
  timeout : Option Nat
  id : Option Int
  channel : Option Outcome
  deriving DecidableEq

/-- The client, the map of pending senders leading to the requests that own them. -/
structure State where
  closed : Bool
  cancelled : Bool
  transport_closed : Bool
  reading : Bool
  next_id : Int
  pending : List (Int × Ticket)
  requests : Ticket → Option Request
  reported : List McpError

def State.init : State where
  closed := false
  cancelled := false
  transport_closed := false
  reading := true
  next_id := 1
  pending := []
  requests := fun _ => none
  reported := []

def State.set (s : State) (ticket : Ticket) (request : Request) : State :=
  {s with requests := Function.update s.requests ticket (some request)}

def State.register (s : State) (ticket : Ticket) (request : Request) : State :=
  {s.set ticket {request with phase := .Registered, id := some s.next_id} with
    next_id := s.next_id + 1
    pending := Assoc.put s.pending s.next_id ticket}

def State.unregister (s : State) (id : Int) : State := {s with pending := Assoc.remove s.pending id}

/-- The guard of the registration runs however the exchange ends. -/
def State.finish (s : State) (ticket : Ticket) (request : Request) (phase : Phase) : State :=
  let ended := s.set ticket {request with phase}
  match request.id with
  | some id => ended.unregister id
  | none => ended

def State.deliver (s : State) (ticket : Ticket) (outcome : Outcome) : State :=
  match s.requests ticket with
  | some request => s.set ticket {request with channel := some outcome}
  | none => s

def State.fail_pending (s : State) (error : McpError) : State :=
  {s with
    pending := []
    requests := fun ticket => (s.requests ticket).map fun request =>
      if s.pending.any (·.2 = ticket) then {request with channel := some (.error error)} else request}

def State.resolve (s : State) (id : RequestId) (outcome : Outcome) : Option State :=
  match id with
  | .String _ => none
  | .Number number => (s.pending.lookup number).map fun ticket => (s.unregister number).deliver ticket outcome

def State.report (s : State) (error : McpError) : State := {s with reported := s.reported ++ [error]}

def JsonRpcErrorObject.outcome (error : JsonRpcErrorObject) : McpError :=
  .JsonRpc error.code error.message error.data

def State.handle_message (s : State) : JsonRpcMessage → State
  | .Response id result =>
    (s.resolve id (.ok result)).getD
      (s.report (.Protocol s!"received a response for unknown request id {id}"))
  | .Error id error =>
    (id.bind fun id => s.resolve id (.error error.outcome)).getD (s.report error.outcome)

def State.handle_event (s : State) : TransportEvent → State
  | .Message message => s.handle_message message
  | .Error error => s.report error
  | .RequestError id error =>
    (s.resolve id (.error error)).getD
      (s.report (.Protocol s!"received a failure for unknown request id {id}"))

def State.end_dispatch (s : State) : State := {s with closed := true, reading := false}.fail_pending .Closed

def State.stop (s : State) : State := {s with closed := true, cancelled := true}.fail_pending .Closed

/-- Whether the exchange holds its registration guard. -/
def Phase.is_live : Phase → Bool
  | .Registered | .Sending | .Waiting => true
  | _ => false

def Phase.is_unfinished (phase : Phase) : Bool := phase = .Checked || phase.is_live

inductive Action where
  | start (ticket : Ticket) (options : RequestOptions)
  | register (ticket : Ticket)
  | send (ticket : Ticket)
  | sent (ticket : Ticket)
  | send_failed (ticket : Ticket) (error : McpError)
  | receive (ticket : Ticket)
  | timeout (ticket : Ticket)
  | cancel (ticket : Ticket)
  | abort (ticket : Ticket)
  | drop (ticket : Ticket)
  | event (event : TransportEvent)
  | transport_closes
  | end_dispatch
  | stop
  deriving DecidableEq

def State.caller (s : State) (ticket : Ticket) (phases : Phase → Bool) (next : Request → Option State) :
    Option State :=
  (s.requests ticket).bind fun request => if phases request.phase then next request else none

def State.received (s : State) (ticket : Ticket) (request : Request) : Option Outcome :=
  match request.channel with
  | some outcome => some outcome
  | none => if (request.id.bind fun id => s.pending.lookup id) = some ticket then none else some (.error .Closed)

/-- The steps that are possible. A transport that is closed refuses to send; the
    reader stops at the end of the transport or at the cancellation. -/
def step (default_timeout : Option Nat) (s : State) : Action → Option State
  | .start ticket options =>
    if (s.requests ticket).isSome then none
    else
      let timeout := options.effective_timeout default_timeout
      let phase : Phase := if s.closed then .Done (.error .Closed) else .Checked
      some (s.set ticket ⟨phase,timeout,none,none⟩)
  | .register ticket => s.caller ticket (· = .Checked) fun request => some (s.register ticket request)
  | .send ticket => s.caller ticket (· = .Registered) fun request =>
    if s.transport_closed then some (s.finish ticket request (.Done (.error .Closed)))
    else some (s.set ticket {request with phase := .Sending})
  | .sent ticket => s.caller ticket (· = .Sending) fun request => some (s.set ticket {request with phase := .Waiting})
  | .send_failed ticket error => s.caller ticket (· = .Sending) fun request =>
    some (s.finish ticket request (.Done (.error error)))
  | .receive ticket => s.caller ticket (· = .Waiting) fun request =>
    (s.received ticket request).map fun outcome => s.finish ticket request (.Done outcome)
  | .timeout ticket => s.caller ticket Phase.is_unfinished fun request =>
    request.timeout.map fun timeout => s.finish ticket request (.Done (.error (.Timeout timeout)))
  | .cancel ticket => s.caller ticket Phase.is_unfinished fun request =>
    some (s.finish ticket request (.Done (.error .Cancelled)))
  | .abort ticket => s.caller ticket Phase.is_unfinished fun request =>
    if s.cancelled then some (s.finish ticket request (.Done (.error .Closed))) else none
  | .drop ticket => s.caller ticket Phase.is_unfinished fun request => some (s.finish ticket request .Dropped)
  | .event event => if s.reading then some (s.handle_event event) else none
  | .transport_closes => some {s with transport_closed := true}
  | .end_dispatch => if s.reading && (s.transport_closed || s.cancelled) then some s.end_dispatch else none
  | .stop => some s.stop

def run (default_timeout : Option Nat) (actions : List Action) : Option State :=
  Runs.run (step default_timeout) .init actions

/-- A request that ends normally is answered by its own response, not by a late one. -/
example : ((run none [.start 0 ⟨some 5,none⟩,.register 0,.send 0,.sent 0,.timeout 0,.start 1 ⟨none,none⟩,.register 1,
    .send 1,.sent 1,.event (.Message (.Response (.Number 1) [])),.event (.Message (.Response (.Number 2) [])),
    .receive 1]).bind (·.requests 1)).map (·.phase) = some (.Done (.ok [])) := by decide

end Ferrin.Mcp
