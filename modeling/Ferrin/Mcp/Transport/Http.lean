import Ferrin.Mcp.Protocol.JsonRpc
import Ferrin.Mcp.Transport.AuthFlight
import Ferrin.SecureUrl.Download
import Ferrin.SseStream

/-!
The streamable HTTP transport. A message is posted until an answer ends the loop;
what the answer says is emitted, for an event stream by a task of its own. A
request is left without any word on it by an accepted status, a JSON body without
a message for it and an error that names another request (`send_answers_iff`).
-/
namespace Ferrin.McpHttp
open List
open Mcp (McpError)
open Mcp.JsonRpc SecureUrl UrlParts
open Mcp.Transport.AuthFlight (AuthOutcome)

inductive RedirectMode where
  | Error
  | Follow
  deriving DecidableEq

structure HttpTransportConfig (Url : Type) where
  url : Url
  redirect : RedirectMode
  url_policy : UrlPolicy
  max_response_bytes : Nat
  max_event_bytes : Nat

inductive TransportEvent where
  | Message (message : JsonRpcMessage)
  | Error (error : McpError)
  | RequestError (id : RequestId) (error : McpError)
  | Closed

structure State where
  started : Bool
  closed : Bool
  session_id : Option (List UInt8)
  protocol_version : Option String
  inbound_started : Bool

def LATEST_PROTOCOL_VERSION : String := "2026-07-28"

def State.is_modern (state : State) : Bool := state.protocol_version = some LATEST_PROTOCOL_VERSION

/-- What a call works with: its settings, what other parts compute, and the answers it gets, by the number of the request. -/
structure Context (Url : Type) where
  config : HttpTransportConfig Url
  overflow_checks : Bool
  from_str : String → Except String JsonValue
  refusal : JsonValue → String
  display_status : Nat → String
  join_error : Url → List UInt8 → String
  auth_enabled : Bool
  authorize : Url → Headers → Except McpError AuthOutcome
  post_headers : Nat → State → Headers
  respond : Nat → Except TransportError HttpResponse

def text (bytes : List UInt8) : String := String.ofList (bytes.map fun b => Char.ofNat b.toNat)

section
variable {Url : Type} [UrlParts Url]

def from_transport (error : TransportError) (url : Url) : McpError :=
  if error.kind = .Cancelled then .Cancelled
  else .Transport ("request to " ++ (host_str url).getD "" ++ " failed: " ++ error.message)

def redirect_target (join_error : Url → List UInt8 → String) (url : Url) (headers : Headers) : Except McpError Url :=
  match headers.get_str "location" with
  | none => .error (.Transport "redirect response without a location header")
  | some location =>
    match join url (text location) with
    | none => .error (.Transport ("invalid redirect location: " ++ join_error url location))
    | some target =>
      if is_same_origin target url then .ok target
      else .error (.Transport ("redirect to another origin is not allowed: " ++ (host_str target).getD ""))

def is_redirect (status : Nat) : Bool := status = 307 || status = 308

def content_type_is (headers : Headers) (expected : String) : Bool :=
  (headers.get_str "content-type").any fun value =>
    decide (expected.toList <:+: (value.map fun b => (Char.ofNat b.toNat).toLower))

def body_text (response : HttpResponse) (max_bytes : Nat) (url : Url) : Except McpError String :=
  match read_body response max_bytes with
  | .ok bytes => .ok (String.ofList (Utf8.decode bytes))
  | .error error => .error (from_transport error url)

variable (ctx : Context Url)

def parse_value (text : String) : Except McpError JsonValue :=
  match ctx.from_str text with
  | .ok value => .ok value
  | .error error => .error (.Protocol ("invalid JSON-RPC message: " ++ error))

def parse (text : String) : Except McpError JsonRpcMessage := do from_json ctx.refusal (← parse_value ctx text)

def parse_one_or_many (text : String) : Except McpError (List JsonRpcMessage) := do
  match ← parse_value ctx text with
  | .array items => items.mapM (from_json ctx.refusal)
  | other => return [← from_json ctx.refusal other]

def status_error (front : String) (status : Nat) (body : String) : McpError :=
  .Transport (front ++ " (HTTP " ++ ctx.display_status status ++ ")" ++ if body = "" then "" else ": " ++ body)

/-! ### The event stream of a response -/

def completes (id : RequestId) : JsonRpcMessage → Bool
  | .Response other _ => other = id
  | .Error other _ => other = some id
  | _ => false

def pump_events (id : RequestId) : List (Sse.Item TransportError) → List TransportEvent × Except McpError Unit
  | [] => ([],.error (.Protocol "request event stream ended without a response"))
  | .error (.Transport error) :: _ => ([],.error (.Transport ("request event stream failed: " ++ error.message)))
  | .error (.Decode (.EventTooLarge limit)) :: _ =>
    ([],.error (.Transport s!"request event stream failed: event exceeds the limit of {limit} bytes"))
  | .ok event :: rest =>
    if event.event.any (· ≠ "message".toList) then pump_events id rest
    else
      match parse_one_or_many ctx (String.ofList event.data) with
      | .error error => ([],.error error)
      | .ok messages =>
        if messages.any (completes id) then (messages.map .Message,.ok ())
        else
          let later := pump_events id rest
          (messages.map .Message ++ later.1,later.2)

def pump_response (id : RequestId) (response : HttpResponse) : List TransportEvent × Except McpError Unit :=
  pump_events ctx id (Sse.decode_stream (response.body.map fun chunk => (chunk,0)) ctx.config.max_event_bytes)

def stream_task (id : RequestId) (response : HttpResponse) : List TransportEvent :=
  match pump_response ctx id response with
  | (events,.ok ()) => events
  | (events,.error .Cancelled) => events
  | (events,.error error) => events ++ [.RequestError id error]

structure Sending (Url : Type) where
  url : Url
  authenticated : Bool
  redirects : UInt8
  sent : Nat
  state : State

inductive Outcome where
  | Returned (result : Except McpError Unit) (events : List TransportEvent)
  | Panicked

/-- What one round of the loop comes to, and whether it overflows the counter. -/
inductive Turn (Url : Type) where
  | Again (next : Sending Url) (overflowed : Bool)
  | Done (outcome : Outcome) (overflowed : Bool)

def failed (error : McpError) : Turn Url := .Done (.Returned (.error error) []) false

def message_id : JsonRpcMessage → Option RequestId
  | .Request id _ _ => some id
  | .Response id _ => some id
  | .Error id _ => id
  | .Notification _ _ => none

def refused (message : JsonRpcMessage) (s : Sending Url) (sent_session_id : Option (List UInt8)) (response : HttpResponse) :
    Except McpError Unit × List TransportEvent :=
  match body_text response ctx.config.max_response_bytes s.url with
  | .error error => (.error error,[])
  | .ok body =>
    match parse ctx body with
    | .ok (.Error id error) => (.ok (),[.Message (.Error (id.or (message_id message)) error)])
    | _ =>
      if response.status = 404 ∧ sent_session_id.isSome then
        (.error (status_error ctx "session expired; reconnect to start a new session" response.status body),[])
      else (.error (status_error ctx "request failed" response.status body),[])

def taken (id : RequestId) (s : Sending Url) (response : HttpResponse) : Except McpError Unit × List TransportEvent :=
  if content_type_is response.headers "text/event-stream" then (.ok (),stream_task ctx id response)
  else if content_type_is response.headers "application/json" then
    match (body_text response ctx.config.max_response_bytes s.url).bind (parse_one_or_many ctx) with
    | .error error => (.error error,[])
    | .ok messages => (.ok (),messages.map .Message)
  else
    let content_type := text ((response.headers.get_str "content-type").getD [])
    (.error (.Transport ("unexpected content type \"" ++ content_type ++ "\" in MCP response")),[])

def Turn.of (result : Except McpError Unit × List TransportEvent) : Turn Url := .Done (.Returned result.1 result.2) false

/-- A response that is neither a 401 nor a redirect that is followed. -/
def conclude (message : JsonRpcMessage) (s : Sending Url) (sent_session_id : Option (List UInt8)) (response : HttpResponse) :
    Turn Url :=
  if response.status = 202 then .Done (.Returned (.ok ()) []) false
  else if response.is_success = false then .of (refused ctx message s sent_session_id response)
  else
    match message with
    | .Request id _ _ => .of (taken ctx id s response)
    | _ => .Done (.Returned (.ok ()) []) false

def follow (s : Sending Url) (response : HttpResponse) : Turn Url :=
  let overflows := decide (s.redirects = 255)
  match add_one ctx.overflow_checks s.redirects with
  | none => .Done .Panicked overflows
  | some redirects =>
    if redirects > ctx.config.url_policy.max_redirects then
      .Done (.Returned (.error (.Transport "too many redirects")) []) overflows
    else
      match redirect_target ctx.join_error s.url response.headers with
      | .error error => .Done (.Returned (.error error) []) overflows
      | .ok url => .Again {s with url := url, redirects := redirects} overflows

def is_followed (response : HttpResponse) : Bool := is_redirect response.status && decide (ctx.config.redirect = .Follow)

def receive (message : JsonRpcMessage) (s : Sending Url) (sent_session_id : Option (List UInt8)) (response : HttpResponse) :
    Turn Url :=
  if response.status = 401 then
    if ctx.auth_enabled && !s.authenticated then
      match ctx.authorize s.url response.headers with
      | .ok .Authorized => .Again {s with authenticated := true} false
      | .ok .Redirected => failed .Unauthorized
      | .error error => failed error
    else failed .Unauthorized
  else if is_followed ctx response then follow ctx s response
  else conclude ctx message s sent_session_id response

def State.named (state : State) (response : HttpResponse) : State :=
  match response.headers.get_str "mcp-session-id" with
  | some session_id => if state.is_modern then state else {state with session_id := some session_id}
  | none => state

def turn (message : JsonRpcMessage) (s : Sending Url) : Turn Url :=
  match ctx.respond s.sent with
  | .error error => failed (from_transport error s.url)
  | .ok response =>
    receive ctx message {s with sent := s.sent + 1, state := s.state.named response}
      ((ctx.post_headers s.sent s.state).get_str "mcp-session-id") response

/-- What a call has done: the requests it made, whether its counter overflowed, how it ended. -/
structure Sent (Url : Type) where
  requests : List (Url × Headers)
  overflowed : Bool
  outcome : Outcome

def send_loop (message : JsonRpcMessage) : Nat → Sending Url → Option (Sent Url)
  | 0, _ => none
  | rounds + 1, s =>
    let request := (s.url,ctx.post_headers s.sent s.state)
    match turn ctx message s with
    | .Done outcome overflowed => some ⟨[request],overflowed,outcome⟩
    | .Again next overflowed => (send_loop message rounds next).map fun later =>
      ⟨request :: later.requests,overflowed || later.overflowed,later.outcome⟩

def Sending.first (state : State) : Sending Url := ⟨ctx.config.url,false,0,0,state⟩

def send_message (message : JsonRpcMessage) (state : State) (rounds : Nat) : Option (Sent Url) :=
  if state.closed then some ⟨[],false,.Returned (.error .Closed) []⟩
  else if state.started = false then
    some ⟨[],false,.Returned (.error (.Transport "transport has not been started")) []⟩
  else send_loop ctx message rounds (.first ctx state)

def addresses (id : RequestId) : TransportEvent → Bool
  | .Message message => completes id message
  | .RequestError other _ => other = id
  | _ => false

/-- The call fails, or an event tells the request how it went. -/
def Word (id : RequestId) (outcome : Outcome) : Prop :=
  ∃ result events, outcome = .Returned result events ∧
    ((∃ error, result = .error error) ∨ events.any (addresses id) = true)

def SameSite (home url : Url) : Prop := url = home ∨ is_same_origin home url = true

structure Answered (id : RequestId) (sent : Sent Url) : Prop where
  answered : Word id sent.outcome
  origin : ∀ request ∈ sent.requests, SameSite ctx.config.url request.1
  counter : sent.overflowed = false

/-- The answers so far lead on to one more request: to a URL, after an authorization or not, and after some redirects. -/
inductive Leads : Nat → Url → Bool → Nat → Prop where
  | start : Leads 0 ctx.config.url false 0
  | authorized {n redirects : Nat} {url : Url} {response : HttpResponse} (before : Leads n url false redirects)
      (answer : ctx.respond n = .ok response) (status : response.status = 401) (enabled : ctx.auth_enabled = true)
      (granted : ctx.authorize url response.headers = .ok .Authorized) : Leads (n + 1) url true redirects
  | redirected {n redirects : Nat} {url target : Url} {authenticated : Bool} {response : HttpResponse}
      (before : Leads n url authenticated redirects) (answer : ctx.respond n = .ok response)
      (followed : is_followed ctx response = true) (within : redirects < ctx.config.url_policy.max_redirects.toNat)
      (resolved : redirect_target ctx.join_error url response.headers = .ok target) :
      Leads (n + 1) target authenticated (redirects + 1)

def ForeignError (id : RequestId) (url : Url) (response : HttpResponse) : Prop :=
  response.status ≠ 401 ∧ is_followed ctx response = false ∧ response.is_success = false ∧
    ∃ body other error, body_text response ctx.config.max_response_bytes url = .ok body ∧
      parse ctx body = .ok (.Error (some other) error) ∧ other ≠ id

def ForeignBody (id : RequestId) (url : Url) (response : HttpResponse) : Prop :=
  response.is_success = true ∧ content_type_is response.headers "text/event-stream" = false ∧
    content_type_is response.headers "application/json" = true ∧
    ∃ body messages, body_text response ctx.config.max_response_bytes url = .ok body ∧
      parse_one_or_many ctx body = .ok messages ∧ messages.any (completes id) = false

/-- No answer to the request, or to one that follows it, leaves it without a word, and at most 255 redirects are counted. -/
def Addressed (id : RequestId) : Prop :=
  ∀ n url authenticated redirects response, Leads ctx n url authenticated redirects → ctx.respond n = .ok response →
    response.status ≠ 202 ∧ ¬ ForeignError ctx id url response ∧ ¬ ForeignBody ctx id url response ∧
      (is_followed ctx response = true → redirects < 255)

section
variable {ctx} {id : RequestId}

variable {error : McpError} {a b : Option Origin} {url target : Url} {message : JsonRpcMessage} {rounds : Nat}
  {overflowed : Bool} {outcome : Outcome}

theorem from_json_error {refusal : JsonValue → String} {value : JsonValue}
    (refused : from_json refusal value = .error error) : error ≠ .Cancelled := by
  unfold from_json classify at refused
  intro same
  subst same
  repeat' (first | split at refused | cases refused)

theorem mapM_error {α β ε : Type} {f : α → Except ε β} {e : ε} {l : List α} (failed : l.mapM f = .error e) :
    ∃ a ∈ l, f a = .error e := by
  induction l with
  | nil => cases failed
  | cons a rest ih =>
    rw [mapM_cons] at failed
    cases first : f a with
    | error =>
      rw [first] at failed
      cases failed
      exact ⟨a,mem_cons_self,first⟩
    | ok =>
      rw [first] at failed
      cases later : rest.mapM f with
      | error =>
        rw [later] at failed
        cases failed
        obtain ⟨c,mem,same⟩ := ih later
        exact ⟨c,mem_cons_of_mem a mem,same⟩
      | ok =>
        rw [later] at failed
        cases failed

omit [UrlParts Url] in
theorem parse_error {text : String} (refused : parse_one_or_many ctx text = .error error) : error ≠ .Cancelled := by
  unfold parse_one_or_many parse_value at refused
  cases read : ctx.from_str text with
  | error =>
    rw [read] at refused
    cases refused
    nofun
  | ok value =>
    rw [read] at refused
    have single (value : JsonValue)
        (refused : (from_json ctx.refusal value).bind (fun message => .ok [message]) = .error error) : error ≠ .Cancelled := by
      cases read : from_json ctx.refusal value with
      | error =>
        rw [read] at refused
        cases refused
        exact from_json_error read
      | ok =>
        rw [read] at refused
        cases refused
    cases value with
    | array items =>
      obtain ⟨_,-,failed⟩ := mapM_error (show items.mapM (from_json ctx.refusal) = .error error from refused)
      exact from_json_error failed
    | null => exact single .null refused
    | bool b => exact single (.bool b) refused
    | number n => exact single (.number n) refused
    | string text => exact single (.string text) refused
    | object entries => exact single (.object entries) refused

theorem any_message (messages : List JsonRpcMessage) :
    (messages.map TransportEvent.Message).any (addresses id) = messages.any (completes id) := by
  rw [any_map]
  rfl

omit [UrlParts Url] in
theorem pump_events_spec (items : List (Sse.Item TransportError)) :
    ((pump_events ctx id items).2 = .ok () ∧ (pump_events ctx id items).1.any (addresses id) = true) ∨
      ∃ error, (pump_events ctx id items).2 = .error error ∧ error ≠ .Cancelled := by
  fun_induction pump_events ctx id items with
  | case1 => exact .inr ⟨_,rfl,nofun⟩
  | case2 => exact .inr ⟨_,rfl,nofun⟩
  | case3 => exact .inr ⟨_,rfl,nofun⟩
  | case4 _ _ _ ih => exact ih
  | case5 _ _ _ error refused => exact .inr ⟨error,rfl,parse_error refused⟩
  | case6 _ _ _ messages _ complete => exact .inl ⟨rfl,(any_message messages).trans complete⟩
  | case7 _ _ _ _ _ _ later ih =>
    rcases ih with ⟨done,found⟩ | failed
    · exact .inl ⟨done,by simp [later,found]⟩
    · exact .inr failed

omit [UrlParts Url] in
theorem stream_task_addresses (response : HttpResponse) : (stream_task ctx id response).any (addresses id) = true := by
  have spec := @pump_events_spec Url ctx id
    (Sse.decode_stream (response.body.map fun chunk => (chunk,0)) ctx.config.max_event_bytes)
  unfold stream_task pump_response
  generalize pump_events ctx id _ = pumped at spec ⊢
  obtain ⟨_,_⟩ := pumped
  rcases spec with ⟨rfl,found⟩ | ⟨error,rfl,other⟩
  · exact found
  · cases error with
    | Cancelled => exact absurd rfl other
    | _ => simp [addresses]

/-! ### The last response -/

theorem word_of {result : Except McpError Unit} {events : List TransportEvent} : Word id (.Returned result events) ↔
    (∃ error, result = .error error) ∨ events.any (addresses id) = true := by
  constructor
  · rintro ⟨_,_,same,word⟩
    cases same
    exact word
  · exact fun word => ⟨_,_,rfl,word⟩

variable {s : Sending Url} {response : HttpResponse} {session : Option (List UInt8)} {method : String}
  {params : Option JsonObject}

theorem refused_word : Word id (.Returned (refused ctx (.Request id method params) s session response).1
      (refused ctx (.Request id method params) s session response).2) ↔
    ¬ ∃ body other error, body_text response ctx.config.max_response_bytes s.url = .ok body ∧
      parse ctx body = .ok (.Error (some other) error) ∧ other ≠ id := by
  rw [word_of,refused]
  cases body_text response ctx.config.max_response_bytes s.url with
  | error => simp
  | ok body =>
    cases parsed : parse ctx body with
    | error =>
      refine iff_of_true (.inl ?_) (by simp [parsed])
      simp only [parsed]
      split_ifs <;> exact ⟨_,rfl⟩
    | ok message =>
      cases message with
      | Error other =>
        cases other with
        | none => simp [parsed,addresses,completes,message_id]
        | some => simp [parsed,addresses,completes]
      | _ =>
        refine iff_of_true (.inl ?_) (by simp [parsed])
        simp only [parsed]
        split_ifs <;> exact ⟨_,rfl⟩

theorem taken_word : Word id (.Returned (taken ctx id s response).1 (taken ctx id s response).2) ↔
    ¬ (content_type_is response.headers "text/event-stream" = false ∧
      content_type_is response.headers "application/json" = true ∧
      ∃ body messages, body_text response ctx.config.max_response_bytes s.url = .ok body ∧
        parse_one_or_many ctx body = .ok messages ∧ messages.any (completes id) = false) := by
  rw [word_of,taken]
  by_cases streams : content_type_is response.headers "text/event-stream" = true
  · rw [if_pos streams]
    exact iff_of_true (.inr (stream_task_addresses response)) (by simp [streams])
  rw [if_neg streams]
  by_cases json : content_type_is response.headers "application/json" = true
  · rw [if_pos json]
    cases body_text response ctx.config.max_response_bytes s.url with
    | error => simp [Except.bind]
    | ok body =>
      cases parsed : parse_one_or_many ctx body with
      | error => simp [Except.bind,parsed]
      | ok =>
        simp only [Except.bind,parsed]
        rw [any_message]
        simp [streams,json,parsed]
  · rw [if_neg json]
    exact iff_of_true (.inl ⟨_,rfl⟩) (by simp [json])

theorem conclude_word (other : response.status ≠ 401) (stays : is_followed ctx response = false) :
    ∃ outcome, conclude ctx (.Request id method params) s session response = .Done outcome false ∧
      (Word id outcome ↔ response.status ≠ 202 ∧ ¬ ForeignError ctx id s.url response ∧ ¬ ForeignBody ctx id s.url response) := by
  unfold conclude
  by_cases accepted : response.status = 202
  · rw [if_pos accepted]
    exact ⟨_,rfl,iff_of_false (by simp [word_of]) (by simp [accepted])⟩
  rw [if_neg accepted]
  by_cases success : response.is_success = false
  · rw [if_pos success]
    refine ⟨_,rfl,refused_word.trans ?_⟩
    simp [ForeignError,ForeignBody,accepted,other,stays,success]
  · rw [if_neg success]
    refine ⟨_,rfl,taken_word.trans ?_⟩
    simp [ForeignError,ForeignBody,accepted,success]

theorem sameOrigin_symm (same : sameOrigin a b = true) : sameOrigin b a = true := by
  cases a <;> cases b <;> simp_all [sameOrigin]

theorem sameOrigin_trans {c : Option Origin} (first : sameOrigin a b = true) (second : sameOrigin b c = true) :
    sameOrigin a c = true := by
  cases a <;> cases b <;> cases c <;> simp_all [sameOrigin]

theorem redirect_target_same {join_error : Url → List UInt8 → String} {headers : Headers}
    (resolved : redirect_target join_error url headers = .ok target) : is_same_origin url target = true := by
  unfold redirect_target at resolved
  split at resolved
  · cases resolved
  · split at resolved
    · cases resolved
    · split_ifs at resolved with same
      cases resolved
      exact sameOrigin_symm same

theorem SameSite.follow {home : Url} (here : SameSite home url) (moved : is_same_origin url target = true) :
    SameSite home target := by
  rcases here with rfl | here
  · exact .inr moved
  · exact .inr (sameOrigin_trans here moved)

omit [UrlParts Url] in
theorem add_one_below {redirects : UInt8} (below : redirects.toNat < 255) :
    add_one ctx.overflow_checks redirects = some (redirects + 1) ∧ (redirects + 1).toNat = redirects.toNat + 1 := by
  have differs : redirects ≠ 255 := by
    rintro rfl
    exact absurd below (by decide)
  refine ⟨by simp [add_one,differs],?_⟩
  rw [UInt8.toNat_add]
  exact Nat.mod_eq_of_lt (by change redirects.toNat + 1 < 256; omega)

/-- How many rounds may still follow. -/
def Sending.left (ctx : Context Url) (s : Sending Url) : Nat :=
  (if s.authenticated then 0 else 1) + (ctx.config.url_policy.max_redirects.toNat - s.redirects.toNat)

theorem send_loop_again {next : Sending Url}
    (again : turn ctx message s = .Again next overflowed) : send_loop ctx message (rounds + 1) s =
      (send_loop ctx message rounds next).map fun later =>
        ⟨(s.url,ctx.post_headers s.sent s.state) :: later.requests,overflowed || later.overflowed,later.outcome⟩ := by
  rw [send_loop,again]

theorem send_loop_done (done : turn ctx message s = .Done outcome overflowed) : send_loop ctx message (rounds + 1) s =
      some ⟨[(s.url,ctx.post_headers s.sent s.state)],overflowed,outcome⟩ := by
  rw [send_loop,done]

theorem answered_done (here : SameSite ctx.config.url s.url) (word : Word id outcome) :
    Answered ctx id ⟨[(s.url,ctx.post_headers s.sent s.state)],false,outcome⟩ :=
  ⟨word,fun _ mem => List.mem_singleton.mp mem ▸ here,rfl⟩

theorem turn_from (addressed : Addressed ctx id) (leads : Leads ctx s.sent s.url s.authenticated s.redirects.toNat)
    (here : SameSite ctx.config.url s.url) :
    (∃ outcome, turn ctx (.Request id method params) s = .Done outcome false ∧ Word id outcome) ∨
      ∃ next, turn ctx (.Request id method params) s = .Again next false ∧
        Leads ctx next.sent next.url next.authenticated next.redirects.toNat ∧ SameSite ctx.config.url next.url ∧
        next.left ctx < s.left ctx := by
  have failing {error : McpError} : Word id (.Returned (.error error) []) := word_of.mpr (.inl ⟨error,rfl⟩)
  cases answer : ctx.respond s.sent with
  | error => exact .inl ⟨_,by rw [turn,answer]; rfl,failing⟩
  | ok response =>
    obtain ⟨accepted,error,body,counter⟩ := addressed _ _ _ _ response leads answer
    rw [turn,answer]
    dsimp only
    rw [receive]
    by_cases unauthorized : response.status = 401
    · rw [if_pos unauthorized]
      by_cases asks : (ctx.auth_enabled && !s.authenticated) = true
      · rw [if_pos asks]
        rw [Bool.and_eq_true,Bool.not_eq_true'] at asks
        cases granted : ctx.authorize s.url response.headers with
        | error => exact .inl ⟨_,rfl,failing⟩
        | ok outcome =>
          cases outcome with
          | Redirected => exact .inl ⟨_,rfl,failing⟩
          | Authorized =>
            rw [asks.2] at leads
            refine .inr ⟨_,rfl,.authorized leads answer unauthorized asks.1 granted,here,?_⟩
            simp [Sending.left,asks.2]
      · rw [if_neg asks]
        exact .inl ⟨_,rfl,failing⟩
    rw [if_neg unauthorized]
    by_cases followed : is_followed ctx response = true
    · rw [if_pos followed,follow]
      have below := counter followed
      obtain ⟨counted,number⟩ := @add_one_below Url ctx s.redirects below
      have fits : decide (s.redirects = 255) = false := by
        refine decide_eq_false fun same => ?_
        rw [same] at below
        exact absurd below (by decide)
      dsimp only
      rw [counted,fits]
      dsimp only
      by_cases tooMany : s.redirects + 1 > ctx.config.url_policy.max_redirects
      · rw [if_pos tooMany]
        exact .inl ⟨_,rfl,failing⟩
      rw [if_neg tooMany]
      cases resolved : redirect_target ctx.join_error s.url response.headers with
      | error => exact .inl ⟨_,rfl,failing⟩
      | ok target =>
        have within : s.redirects.toNat < ctx.config.url_policy.max_redirects.toNat := by
          rw [gt_iff_lt,UInt8.lt_iff_toNat_lt,number] at tooMany
          omega
        refine .inr ⟨_,rfl,?_,here.follow (redirect_target_same resolved),?_⟩
        · change Leads ctx (s.sent + 1) target s.authenticated (s.redirects + 1).toNat
          rw [number]
          exact .redirected leads answer followed within resolved
        · simp only [Sending.left,number]
          omega
    · rw [if_neg followed]
      obtain ⟨_,concluded,word⟩ := @conclude_word Url _ ctx id
        {s with sent := s.sent + 1, state := s.state.named response} response
        ((ctx.post_headers s.sent s.state).get_str "mcp-session-id") method params unauthorized (by simpa using followed)
      exact .inl ⟨_,concluded,word.mpr ⟨accepted,error,body⟩⟩

theorem answers_from (addressed : Addressed ctx id) : ∀ (rounds : Nat) (s : Sending Url),
    Leads ctx s.sent s.url s.authenticated s.redirects.toNat → SameSite ctx.config.url s.url → s.left ctx < rounds →
      ∃ sent, send_loop ctx (.Request id method params) rounds s = some sent ∧ Answered ctx id sent := by
  intro rounds
  induction rounds with
  | zero => exact fun _ _ _ few => absurd few (Nat.not_lt_zero _)
  | succ _ ih =>
    intro s leads here enough
    rcases @turn_from Url _ ctx id s method params addressed leads here with ⟨_,done,word⟩ | ⟨next,again,later,there,_⟩
    · exact ⟨_,send_loop_done done,answered_done here word⟩
    · obtain ⟨_,ran,answered⟩ := ih next later there (by omega)
      refine ⟨_,(send_loop_again again).trans (congrArg _ ran),answered.answered,?_,answered.counter⟩
      exact List.forall_mem_cons.mpr ⟨here,answered.origin⟩

omit [UrlParts Url] in
theorem not_unauthorized {response : HttpResponse} (followed : is_followed ctx response = true) : response.status ≠ 401 := by
  intro status
  simp [is_followed,is_redirect,status] at followed

theorem comes_to {state : State} {sent : Sent Url}
    (ran : send_loop ctx message rounds (.first ctx state) = some sent) {n redirects : Nat} {authenticated : Bool}
    (leads : Leads ctx n url authenticated redirects) : ∃ s rounds later, s.sent = n ∧ s.url = url ∧
      s.authenticated = authenticated ∧ s.redirects.toNat = redirects ∧ send_loop ctx message rounds s = some later ∧
      later.outcome = sent.outcome ∧ (later.overflowed = true → sent.overflowed = true) := by
  have further {s next : Sending Url} {rounds : Nat} {later : Sent Url} {overflowed : Bool}
      (again : turn ctx message s = .Again next overflowed) (went : send_loop ctx message rounds s = some later)
      (outcome : later.outcome = sent.outcome) (overflows : later.overflowed = true → sent.overflowed = true) :
      ∃ rounds after, send_loop ctx message rounds next = some after ∧ after.outcome = sent.outcome ∧
        (after.overflowed = true → sent.overflowed = true) := by
    cases rounds with
    | zero => cases went
    | succ rounds =>
      rw [send_loop_again again,Option.map_eq_some_iff] at went
      obtain ⟨after,ran,rfl⟩ := went
      exact ⟨rounds,after,ran,outcome,fun full => overflows (by simp [full])⟩
  induction leads with
  | start => exact ⟨.first ctx state,rounds,sent,rfl,rfl,rfl,rfl,ran,rfl,id⟩
  | authorized _ answer status enabled granted ih =>
    rename_i response _
    obtain ⟨s,rounds,later,rfl,rfl,fresh,rfl,went,outcome,overflows⟩ := ih
    have again : turn ctx message s = .Again {s with
        sent := s.sent + 1, state := s.state.named response, authenticated := true} false := by
      simp [turn,answer,receive,status,enabled,fresh,granted]
    obtain ⟨rounds,after,ran,same,full⟩ := further again went outcome overflows
    refine ⟨_,rounds,after,?_,?_,?_,?_,ran,same,full⟩ <;> rfl
  | redirected _ answer followed within resolved ih =>
    rename_i target _ response _
    obtain ⟨s,rounds,_,rfl,rfl,rfl,rfl,went,outcome,overflows⟩ := ih
    have below : s.redirects.toNat < 255 := Nat.lt_of_lt_of_le within (Nat.le_of_lt_succ (UInt8.toNat_lt _))
    obtain ⟨counted,number⟩ := @add_one_below Url ctx s.redirects below
    have fits : s.redirects ≠ 255 := by
      rintro same
      rw [same] at below
      exact absurd below (by decide)
    have few : ¬ s.redirects + 1 > ctx.config.url_policy.max_redirects := by
      rw [gt_iff_lt,UInt8.lt_iff_toNat_lt,number]
      omega
    have again : turn ctx message s = .Again {s with
        sent := s.sent + 1, state := s.state.named response, url := target, redirects := s.redirects + 1} false := by
      simp [turn,answer,receive,not_unauthorized followed,followed,follow,counted,few,resolved,fits]
    obtain ⟨rounds,after,ran,same,full⟩ := further again went outcome overflows
    refine ⟨_,rounds,after,?_,?_,?_,?_,ran,same,full⟩
    · rfl
    · rfl
    · rfl
    · exact number

theorem overflows_at {later : Sent Url} (answer : ctx.respond s.sent = .ok response)
    (followed : is_followed ctx response = true) (last : s.redirects = 255)
    (went : send_loop ctx message rounds s = some later) : later.overflowed = true := by
  cases rounds with
  | zero => cases went
  | succ =>
    have turned : (∃ outcome, turn ctx message s = .Done outcome true) ∨ ∃ next, turn ctx message s = .Again next true := by
      rw [turn,answer]
      dsimp only
      rw [receive,if_neg (not_unauthorized followed),if_pos followed,follow]
      simp only [last,decide_true]
      cases add_one ctx.overflow_checks 255 with
      | none => exact .inl ⟨_,rfl⟩
      | some =>
        dsimp only
        split_ifs
        · exact .inl ⟨_,rfl⟩
        · cases redirect_target ctx.join_error s.url response.headers with
          | error => exact .inl ⟨_,rfl⟩
          | ok => exact .inr ⟨_,rfl⟩
    rcases turned with ⟨_,done⟩ | ⟨_,again⟩
    · rw [send_loop_done done] at went
      cases went
      rfl
    · rw [send_loop_again again,Option.map_eq_some_iff] at went
      obtain ⟨_,-,rfl⟩ := went
      rfl

end

/-- For every state of the transport, every request and every chain of answers. -/
theorem send_answers_iff (state : State) (id : RequestId) (method : String) (params : Option JsonObject) :
    (∃ rounds sent, send_message ctx (.Request id method params) state rounds = some sent ∧ Answered ctx id sent) ↔
      (state.started = true → state.closed = false → Addressed ctx id) := by
  by_cases closed : state.closed = true
  · refine iff_of_true ⟨0,_,by rw [send_message,if_pos closed],⟨_,_,rfl,.inl ⟨_,rfl⟩⟩,forall_mem_nil _,rfl⟩ ?_
    intro _ still
    simp [closed] at still
  by_cases fresh : state.started = false
  · refine iff_of_true ⟨0,_,by rw [send_message,if_neg closed,if_pos fresh],⟨_,_,rfl,.inl ⟨_,rfl⟩⟩,forall_mem_nil _,rfl⟩ ?_
    intro ready
    simp [fresh] at ready
  have looped (rounds : Nat) : send_message ctx (.Request id method params) state rounds =
      send_loop ctx (.Request id method params) rounds (.first ctx state) := by
    rw [send_message,if_neg closed,if_neg fresh]
  constructor
  · rintro ⟨rounds,sent,ran,answered⟩ - -
    rw [looped] at ran
    intro n url authenticated redirects response leads answer
    obtain ⟨s,rounds,later,rfl,rfl,-,rfl,went,outcome,overflows⟩ := comes_to ran leads
    have last : is_followed ctx response = true → s.redirects.toNat < 255 := by
      intro followed
      by_contra above
      have full : s.redirects = 255 := UInt8.toNat_inj.mp (by
        have bound := s.redirects.toNat_lt
        change s.redirects.toNat = 255
        omega)
      have overflowed := overflows (overflows_at answer followed full went)
      rw [answered.counter] at overflowed
      cases overflowed
    by_cases other : response.status = 401
    · exact ⟨by simp [other],fun foreign => foreign.1 other,fun foreign => by
        simpa [HttpResponse.is_success,other] using foreign.1,last⟩
    by_cases followed : is_followed ctx response = true
    · have moved : response.status = 307 ∨ response.status = 308 := by
        have redirects := ((Bool.and_eq_true _ _).mp followed).1
        simpa [is_redirect] using redirects
      have refused : response.is_success = false := by rcases moved with status | status <;> simp [HttpResponse.is_success,status]
      refine ⟨by omega,fun foreign => ?_,fun foreign => ?_,last⟩
      · exact absurd (followed.symm.trans foreign.2.1) (by simp)
      · exact absurd (refused.symm.trans foreign.1) (by simp)
    obtain ⟨concluding,concluded,word⟩ := @conclude_word Url _ ctx id
      {s with sent := s.sent + 1, state := s.state.named response} response
      ((ctx.post_headers s.sent s.state).get_str "mcp-session-id") method params other (by simpa using followed)
    have done : turn ctx (.Request id method params) s = .Done concluding false := by
      rw [turn,answer]
      dsimp only
      rw [receive,if_neg other,if_neg followed,concluded]
    cases rounds with
    | zero => cases went
    | succ rounds =>
      rw [send_loop_done done] at went
      cases went
      have told : Word id concluding := (show concluding = sent.outcome from outcome) ▸ answered.answered
      obtain ⟨accepted,error,body⟩ := word.mp told
      exact ⟨accepted,error,body,last⟩
  · intro running
    have addressed := running (by simpa using fresh) (by simpa using closed)
    obtain ⟨sent,ran,answered⟩ := @answers_from Url _ ctx id method params addressed _ (.first ctx state) .start (.inl rfl)
      (Nat.lt_succ_self _)
    exact ⟨_,sent,(looped _).trans ran,answered⟩

end

/-- A server that answers everything in one way. -/
def answering (response : HttpResponse) : Context HostUrl where
  config := ⟨home,.Error,.default,1024,1024⟩
  overflow_checks := true
  from_str := fun text => .error text
  refusal := fun _ => "invalid type"
  display_status := fun _ => "202 Accepted"
  join_error := fun _ _ => "invalid port number"
  auth_enabled := false
  authorize := fun _ _ => .ok .Redirected
  post_headers := fun _ _ => .new
  respond := fun _ => .ok response

def started : State := ⟨true,false,none,none,false⟩

def ping : JsonRpcMessage := .Request (.Number 1) "ping" none

/-- An accepted request is left waiting. -/
theorem accepted_unanswered : ¬ ∃ rounds sent, send_message (answering ⟨202,.new,[]⟩) ping started rounds = some sent ∧
    Answered (answering ⟨202,.new,[]⟩) (.Number 1) sent := by
  rintro ⟨rounds,sent,ran,answered⟩
  cases rounds with
  | zero => cases ran
  | succ rounds =>
    cases ran
    obtain ⟨_,_,same,⟨_,failed⟩ | told⟩ := answered.answered
    · cases same
      cases failed
    · cases same
      cases told

end Ferrin.McpHttp
