import Ferrin.Library.Result
import Ferrin.Mcp.OAuth.Auth

/-!
Credentials stay with the server that they were saved for: along every sequence
of calls, whatever the network answers.
-/
namespace Ferrin.Mcp.OAuth
open Ferrin.Library Ferrin.SecureUrl List Option OAuth
open List (mem_append mem_singleton)
open Prod (mk)

/-! ### What a request carries, and where it belongs -/

variable {α : Type} {a : α} {most : Nat} {headers : List (String × HeaderValue)}

section
variable {Url : Type}

def HttpRequest.fields (request : HttpRequest Url) : List (String × String) :=
  match request.body with
  | .Form fields => fields
  | _ => []

def HttpRequest.Shows (request : HttpRequest Url) (secret : String) : Prop :=
  ("client_secret",secret) ∈ request.fields ∨ ∃ name client_id, (name,.Basic client_id secret) ∈ request.headers

/-- The client that is stored is replaced or discarded. -/
def touchesClient : Event Url → Bool
  | .SavedClient _ | .Invalidated .All | .Invalidated .Client => true
  | _ => false

def touchesTokens : Event Url → Bool
  | .SavedTokens _ | .Invalidated .All | .Invalidated .Tokens => true
  | _ => false

/-- The pending authorization is replaced or discarded. -/
def touchesPending : Event Url → Bool
  | .SavedServer _ | .SavedVerifier _ | .Invalidated .All | .Invalidated .Verifier => true
  | _ => false

def LastSaved (touches : Event Url → Bool) (events : List (Event Url)) (event : Event Url) : Prop :=
  ∃ before after, events = before ++ event :: after ∧ ∀ later ∈ after, touches later = false

def SavedTogether (events : List (Event Url)) (server : ServerInformation Url) (code_verifier : String) : Prop :=
  ∃ before after, events = before ++ .SavedServer server :: .SavedVerifier code_verifier :: after ∧
    ∀ later ∈ after, touchesPending later = false

structure Bound (events : List (Event Url)) (options : AuthOptions Url) (request : HttpRequest Url) : Prop where
  code : ∀ name value, (name,value) ∈ request.fields → name = "code" ∨ name = "code_verifier" →
    ∃ server code_verifier, SavedTogether events server code_verifier ∧ request.url = server.token_endpoint ∧
      (name = "code" → options.authorization_code = some value) ∧ (name = "code_verifier" → value = code_verifier) ∧
      (∀ state, (stored events).state = some state → options.callback_state = some state) ∧
      ∀ issuer, options.callback_issuer = some issuer → server.issuer = some issuer
  refresh : ∀ refresh_token, ("refresh_token",refresh_token) ∈ request.fields →
    ∃ tokens server, LastSaved touchesTokens events (.SavedTokens tokens) ∧ tokens.refresh_token = some refresh_token ∧
      tokens.authorization_server_information = some server ∧ request.url = server.token_endpoint
  secret : ∀ secret, request.Shows secret →
    ∃ client server, LastSaved touchesClient events (.SavedClient client) ∧ client.client_secret = some secret ∧
      client.authorization_server_information = some server ∧ request.url = server.token_endpoint

theorem last_saved (slot : Store Url → Option α) (save : α → Event Url) {touches : Event Url → Bool}
    (empty : slot .empty = none)
    (frame : ∀ (store : Store Url) event, touches event = false → slot (store.after event) = slot store)
    (own : ∀ (store : Store Url) event a, touches event = true → slot (store.after event) = some a → event = save a)
    {events : List (Event Url)} (held : slot (stored events) = some a) : LastSaved touches events (save a) := by
  induction events using reverseRecOn with
  | nil =>
    change slot .empty = some a at held
    rw [empty] at held
    cases held
  | append_singleton events event ih =>
    rw [stored_append] at held
    cases touched : touches event with
    | true =>
      rw [own _ event a touched held]
      exact ⟨events,[],rfl,by simp⟩
    | false =>
      rw [frame _ event touched] at held
      obtain ⟨before,after,split,quiet⟩ := ih held
      refine ⟨before,after ++ [event],by rw [split]; simp,?_⟩
      intro later mem
      rcases mem_append.mp mem with old | new
      · exact quiet later old
      · rw [mem_singleton.mp new]
        exact touched

theorem last_client {events : List (Event Url)} {client : OAuthClientInformation Url}
    (held : (stored events).client = some client) : LastSaved touchesClient events (.SavedClient client) := by
  refine last_saved Store.client .SavedClient rfl ?_ ?_ held
  · intro store event quiet
    cases event with
    | Invalidated scope => cases scope <;> first | rfl | cases quiet
    | _ => first | rfl | cases quiet
  · intro store event a touched saved
    cases event with
    | SavedClient => rw [some.inj saved]
    | Invalidated scope => cases scope <;> first | cases saved | cases touched
    | _ => cases touched

variable {tokens : OAuthTokens Url}

theorem last_tokens {events : List (Event Url)}
    (held : (stored events).tokens = some tokens) : LastSaved touchesTokens events (.SavedTokens tokens) := by
  refine last_saved Store.tokens .SavedTokens rfl ?_ ?_ held
  · intro store event quiet
    cases event with
    | Invalidated scope => cases scope <;> first | rfl | cases quiet
    | _ => first | rfl | cases quiet
  · intro store event a touched saved
    cases event with
    | SavedTokens => rw [some.inj saved]
    | Invalidated scope => cases scope <;> first | cases saved | cases touched
    | _ => cases touched

structure Consistent (events : List (Event Url)) : Prop where
  unregistered : (stored events).client = none →
    (stored events).server = none ∧ (stored events).code_verifier = none ∧ (stored events).tokens = none
  pinned : ∀ client, (stored events).client = some client →
    ∃ pin, client.authorization_server_information = some pin ∧ pin.issuer.isSome = true ∧
      (∀ server, (stored events).server = some server → server = pin) ∧
      ∀ tokens, (stored events).tokens = some tokens → tokens.authorization_server_information = some pin
  paired : ∀ code_verifier, (stored events).code_verifier = some code_verifier →
    ∃ server, (stored events).server = some server ∧ SavedTogether events server code_verifier

variable {events : List (Event Url)}

theorem SavedTogether.later {server : ServerInformation Url} {code_verifier : String} {event : Event Url}
    (together : SavedTogether events server code_verifier) (quiet : touchesPending event = false) :
    SavedTogether (events ++ [event]) server code_verifier := by
  obtain ⟨before,after,split,old⟩ := together
  refine ⟨before,after ++ [event],by rw [split]; simp,fun later mem => ?_⟩
  rcases mem_append.mp mem with earlier | new
  · exact old later earlier
  · rw [mem_singleton.mp new]
    exact quiet

theorem Consistent.start : Consistent ([] : List (Event Url)) :=
  ⟨fun _ => ⟨rfl,rfl,rfl⟩,fun client registered => (by cases registered),fun v saved => (by cases saved)⟩

theorem Consistent.quiet {event : Event Url} (consistent : Consistent events) (pending : touchesPending event = false)
    (client : ((stored events).after event).client = (stored events).client)
    (tokens : ((stored events).after event).tokens = (stored events).tokens)
    (server : ((stored events).after event).server = (stored events).server)
    (verifier : ((stored events).after event).code_verifier = (stored events).code_verifier) :
    Consistent (events ++ [event]) := by
  have same := stored_append events event
  refine ⟨?_,?_,?_⟩
  · rw [same,client,server,verifier,tokens]
    exact consistent.unregistered
  · intro found registered
    rw [same,client] at registered
    rw [same,server,tokens]
    exact consistent.pinned found registered
  · intro v saved
    rw [same,verifier] at saved
    obtain ⟨own,known,together⟩ := consistent.paired v saved
    exact ⟨own,by rw [same,server]; exact known,together.later pending⟩

theorem Consistent.save_tokens {client : OAuthClientInformation Url}
    {current : ServerInformation Url} (consistent : Consistent events) (registered : (stored events).client = some client)
    (own : client.authorization_server_information = some current)
    (saved : tokens.authorization_server_information = some current) : Consistent (events ++ [.SavedTokens tokens]) := by
  obtain ⟨pin,pinned,issuer,servers,-⟩ := consistent.pinned client registered
  have same := stored_append events (.SavedTokens tokens)
  refine ⟨?_,?_,?_⟩
  · intro none_
    rw [same] at none_
    exact absurd (registered.symm.trans none_) (by simp)
  · intro found again
    rw [same] at again ⊢
    obtain rfl := some.inj (registered.symm.trans again)
    refine ⟨pin,pinned,issuer,servers,fun other held => ?_⟩
    obtain rfl := some.inj held
    rw [saved,← own,pinned]
  · intro v held
    rw [same] at held ⊢
    obtain ⟨server,known,together⟩ := consistent.paired v held
    exact ⟨server,known,together.later rfl⟩

theorem Consistent.discard_tokens (consistent : Consistent events) : Consistent (events ++ [.Invalidated .Tokens]) := by
  have same := stored_append events (.Invalidated .Tokens)
  refine ⟨?_,?_,?_⟩
  · intro none_
    rw [same] at none_ ⊢
    obtain ⟨server,verifier,-⟩ := consistent.unregistered none_
    exact ⟨server,verifier,rfl⟩
  · intro client registered
    rw [same] at registered ⊢
    obtain ⟨pin,pinned,issuer,servers,-⟩ := consistent.pinned client registered
    exact ⟨pin,pinned,issuer,servers,fun tokens held => by cases held⟩
  · intro v held
    rw [same] at held ⊢
    obtain ⟨server,known,together⟩ := consistent.paired v held
    exact ⟨server,known,together.later rfl⟩

theorem Consistent.discard_all : Consistent (events ++ [.Invalidated .All]) := by
  have same := stored_append events (.Invalidated .All)
  refine ⟨?_,?_,?_⟩ <;> rw [same]
  · exact fun _ => ⟨rfl,rfl,rfl⟩
  · exact fun client registered => by cases registered
  · exact fun v held => by cases held

theorem Consistent.save_client {client : OAuthClientInformation Url} {current : ServerInformation Url}
    (consistent : Consistent events) (unregistered : (stored events).client = none)
    (own : client.authorization_server_information = some current) (issuer : current.issuer.isSome = true) :
    Consistent (events ++ [.SavedClient client]) := by
  obtain ⟨server,verifier,tokens⟩ := consistent.unregistered unregistered
  have same := stored_append events (.SavedClient client)
  refine ⟨?_,?_,?_⟩
  · intro none_
    rw [same] at none_
    cases none_
  · intro found registered
    rw [same] at registered ⊢
    obtain rfl := some.inj registered
    refine ⟨current,own,issuer,fun other held => ?_,fun other held => ?_⟩
    · exact absurd (server.symm.trans held) (by simp)
    · exact absurd (tokens.symm.trans held) (by simp)
  · intro v held
    rw [same] at held
    exact absurd (verifier.symm.trans held) (by simp)

theorem Consistent.save_pending {client : OAuthClientInformation Url} {current : ServerInformation Url}
    (consistent : Consistent events) (registered : (stored events).client = some client)
    (own : client.authorization_server_information = some current) (code_verifier : String) :
    Consistent (events ++ [.SavedServer current] ++ [.SavedVerifier code_verifier]) := by
  obtain ⟨pin,pinned,issuer,-,tokens⟩ := consistent.pinned client registered
  have same : stored (events ++ [.SavedServer current] ++ [.SavedVerifier code_verifier]) =
      { stored events with server := some current,code_verifier := some code_verifier } := by
    rw [stored_append,stored_append]
    rfl
  refine ⟨?_,?_,?_⟩ <;> rw [same]
  · intro none_
    exact absurd (registered.symm.trans none_) (by simp)
  · intro found again
    obtain rfl := some.inj (registered.symm.trans again)
    refine ⟨pin,pinned,issuer,fun server held => ?_,tokens⟩
    obtain rfl := some.inj held
    exact some.inj (own.symm.trans pinned)
  · intro v held
    obtain rfl := some.inj held
    exact ⟨current,rfl,events,[],by simp,by simp⟩

end

section
variable {Url : Type}

def isStarted : Event Url → Bool
  | .Started => true
  | _ => false

/-- The events of a call of which at most `runs` flows were started, and whose requests were bound when they were sent. -/
def Bounded (start : List (Event Url)) (options : AuthOptions Url) (runs : Nat) (events : List (Event Url)) : Prop :=
  ∃ added, events = start ++ added ∧ added.countP isStarted ≤ runs ∧
    ∀ before request after, added = before ++ .Sent request :: after → Bound (start ++ before) options request

structure Sound (start : List (Event Url)) (options : AuthOptions Url) (runs : Nat) (events : List (Event Url)) : Prop where
  consistent : Consistent events
  bounded : Bounded start options runs events

def At (start : List (Event Url)) (options : AuthOptions Url) (runs : Nat) (F : Store Url → Prop)
    (events : List (Event Url)) : Prop := Sound start options runs events ∧ F (stored events)

variable {start : List (Event Url)} {options : AuthOptions Url} {runs : Nat} {events : List (Event Url)}
  {F : Store Url → Prop}

theorem Bounded.add {event : Event Url} (bounded : Bounded start options runs events)
    (fits : ∀ request, event = .Sent request → Bound events options request)
    (le : runs + (if isStarted event then 1 else 0) ≤ most) : Bounded start options most (events ++ [event]) := by
  obtain ⟨added,rfl,_,bound⟩ := bounded
  refine ⟨added ++ [event],by simp,?_,fun before request after split => ?_⟩
  · rw [countP_append,countP_singleton]
    omega
  rcases eq_nil_or_concat after with rfl | ⟨rest,last,rfl⟩
  · obtain ⟨same,own⟩ := append_inj' split rfl
    rw [← same]
    exact fits request (List.cons.inj own).1
  · have regrouped : added ++ [event] = (before ++ .Sent request :: rest) ++ [last] := by simpa using split
    exact bound before request rest (append_inj' regrouped rfl).1

theorem Bounded.quiet {event : Event Url} (bounded : Bounded start options runs events) (quiet : isStarted event = false)
    (silent : ∀ request, event ≠ .Sent request) : Bounded start options runs (events ++ [event]) :=
  bounded.add (fun request same => absurd same (silent request)) (by simp [quiet])

variable {request : HttpRequest Url}

theorem Sound.sent (sound : Sound start options runs events)
    (fits : Bound events options request) : Sound start options runs (events ++ [.Sent request]) where
  consistent := sound.consistent.quiet rfl rfl rfl rfl rfl
  bounded := sound.bounded.add (fun other same => Event.Sent.inj same ▸ fits) (by simp [isStarted])

theorem Sound.started (sound : Sound start options runs events) :
    Sound start options (runs + 1) (events ++ [.Started]) where
  consistent := sound.consistent.quiet rfl rfl rfl rfl rfl
  bounded := sound.bounded.add (fun _ same => by cases same) (by simp [isStarted])

theorem Bound.bare (fields : request.fields = [])
    (headers : ∀ name client_id secret, (name,HeaderValue.Basic client_id secret) ∉ request.headers) :
    Bound events options request := by
  refine ⟨?_,?_,?_⟩
  · intro name value member
    rw [fields] at member
    cases member
  · intro token member
    rw [fields] at member
    cases member
  · rintro secret (member | ⟨name,client_id,member⟩)
    · rw [fields] at member
      cases member
    · exact absurd member (headers name client_id secret)

/-! ### The rules for one step -/

variable {E : Store Url → Prop}

/-- A flow that starts under a condition `F` ends under `G`, and keeps `E` of the store even when it fails. -/
abbrev Keeps {α : Type} (start : List (Event Url)) (options : AuthOptions Url) (runs : Nat) (E F : Store Url → Prop)
    (x : Flow Url α) (G : α → Store Url → Prop) : Prop :=
  Logged.Spec (At start options runs E) (At start options runs fun store => E store ∧ F store) x
    fun a => At start options runs fun store => E store ∧ G a store

theorem At.less (reached : At start options runs (fun store => E store ∧ F store) events) :
    At start options runs E events := ⟨reached.1,reached.2.1⟩

theorem Keeps.fromStore (slot : Store Url → α) :
    Keeps start options runs E F (fromStore slot) fun a store => F store ∧ a = slot store :=
  Logged.Spec.observe fun _ before => ⟨before.1,before.2.1,before.2.2,rfl⟩

theorem Keeps.observe (f : List (Event Url) → α) :
    Keeps start options runs E F (Logged.observe f) fun _ => F := Logged.Spec.observe fun _ before => before

theorem Keeps.answer (f : List (Event Url) → Except McpError α) :
    Keeps start options runs E F (Logged.answer f) fun _ => F :=
  Logged.Spec.answer (fun _ before => before.less) fun _ _ before _ => before

theorem Keeps.lift (result : Except McpError α) :
    Keeps start options runs E F (Logged.lift result) fun a store => F store ∧ result = .ok a :=
  Logged.Spec.lift (fun _ before => before.less) fun _ _ before found => ⟨before.1,before.2.1,before.2.2,found⟩

theorem Keeps.fail {G : α → Store Url → Prop} (error : McpError) :
    Keeps start options runs E F (Logged.fail error) G := Logged.Spec.fail fun _ before => before.less

theorem Keeps.pure {G : α → Store Url → Prop} (holds : ∀ store, F store → G a store) :
    Keeps start options runs E F (Pure.pure a) G :=
  Logged.Spec.pure fun _ before => ⟨before.1,before.2.1,holds _ before.2.2⟩

theorem Keeps.bind {β : Type} {x : Flow Url α} {f : α → Flow Url β} {G : α → Store Url → Prop}
    {H : β → Store Url → Prop} (first : Keeps start options runs E F x G)
    (rest : ∀ a, Keeps start options runs E (G a) (f a) H) : Keeps start options runs E F (x >>= f) H :=
  Logged.Spec.bind first rest

theorem Keeps.record {event : Event Url} {G : Store Url → Prop} (quiet : isStarted event = false)
    (silent : ∀ request, event ≠ .Sent request)
    (consistent : ∀ events, Consistent events → E (stored events) → F (stored events) → Consistent (events ++ [event]))
    (kept : ∀ store, E store → F store → E (store.after event)) (holds : ∀ store, F store → G (store.after event)) :
    Keeps start options runs E F (Logged.record event) fun _ => G := by
  refine Logged.Spec.record fun events before => ⟨⟨?_,before.1.bounded.quiet quiet silent⟩,?_⟩
  · exact consistent _ before.1.consistent before.2.1 before.2.2
  · rw [stored_append]
    exact ⟨kept _ before.2.1 before.2.2,holds _ before.2.2⟩

theorem Keeps.forget {x : Flow Url α} {G : α → Store Url → Prop} (holds : Keeps start options runs E F x G) :
    Keeps start options runs E F x fun _ _ => True :=
  holds.weaken fun _ _ reached => ⟨reached.1,reached.2.1,trivial⟩

theorem Keeps.outcome {x : Flow Url α} {G : α → Store Url → Prop} (holds : Keeps start options runs E F x G) :
    Keeps start options runs E F (Logged.outcome x) fun result store => ∀ a, result = .ok a → G a store := by
  refine Logged.Spec.outcome (holds.weaken fun a events reached => ?_) fun error events kept => ?_
  · exact ⟨reached.1,reached.2.1,fun other same => Except.ok.inj same ▸ reached.2.2⟩
  · exact ⟨kept.1,kept.2,fun a same => by cases same⟩

theorem Keeps.known {x : Flow Url α} {G : α → Store Url → Prop} (F' : Store Url → Prop)
    (facts : ∀ events, Consistent events → E (stored events) → F (stored events) → F' (stored events))
    (holds : Keeps start options runs E F' x G) : Keeps start options runs E F x G :=
  holds.strengthen fun events before =>
    ⟨before.1,before.2.1,facts events before.1.consistent before.2.1 before.2.2⟩

theorem Keeps.assume {x : Flow Url α} {G : α → Store Url → Prop} {p : Prop}
    (holds : p → Keeps start options runs E F x G) : Keeps start options runs E (fun store => F store ∧ p) x G :=
  fun events before => holds before.2.2.2 events ⟨before.1,before.2.1,before.2.2.1⟩

end

section
variable {Url : Type} [UrlText Url] (env : Environment Url) {start : List (Event Url)} {options : AuthOptions Url}
  {runs : Nat} {E F : Store Url → Prop}

variable {url : Url} {policy : UrlPolicy}

theorem Keeps.send {method : Method}
    {body : RequestBody Url} (fits : ∀ events, At start options runs (fun store => E store ∧ F store) events →
      Bound events options ⟨method,url,headers,body⟩) :
    Keeps start options runs E F (send env method url policy headers body) fun _ => F := by
  refine .bind (.answer _) fun _ => .bind (G := fun _ => F) ?_ fun _ => .answer _
  refine Logged.Spec.record fun events before => ⟨before.1.sent (fits events before),?_⟩
  rw [stored_append]
  exact before.2

theorem Keeps.get_json : Keeps start options runs E F (get_json env url policy version_header) fun _ => F := by
  refine .bind (.send env fun events _ => .bare rfl (by simp [version_header])) fun response => ?_
  split_ifs
  · exact .pure fun _ holds => holds
  · exact .fail _
  · split
    · exact .pure fun _ holds => holds
    · exact .fail _

theorem Keeps.probe_resource (candidates : List Url) :
    Keeps start options runs E F (probe_resource env policy candidates) fun _ => F := by
  induction candidates with
  | nil => exact .pure fun _ holds => holds
  | cons _ _ ih =>
    refine .bind (.get_json env) fun found => ?_
    cases found with
    | none => exact ih
    | some =>
      dsimp only
      split
      · exact .pure fun _ holds => holds
      · exact .fail _

theorem Keeps.probe_server {authorization_server_url : Url} (candidates : List (MetadataUrl Url)) :
    Keeps start options runs E F (probe_server env authorization_server_url policy candidates) fun _ => F := by
  induction candidates with
  | nil => exact .pure fun _ holds => holds
  | cons _ _ ih =>
    refine .bind (.get_json env) fun found => ?_
    cases found with
    | none => exact ih
    | some =>
      dsimp only
      split
      · exact .fail _
      · exact .bind (.lift _) fun _ => .pure fun _ holds => holds.1

theorem Keeps.discover : Keeps start options runs E (fun _ => True) (discover env options) fun _ _ => True := by
  unfold OAuth.discover
  split_ifs
  · exact .fail _
  refine .bind (.outcome (.probe_resource env _)) fun found => ?_
  refine .bind (.answer _) fun resource => .bind (.answer _) fun _ => ?_
  refine .bind (.probe_server env _) fun published => ?_
  cases published with
  | none => exact .bind (.lift _) fun metadata => .pure fun _ _ => trivial
  | some => exact .pure fun _ _ => trivial

theorem Keeps.register_client {metadata : AuthorizationServerMetadata Url} {client_metadata : OAuthClientMetadata Url}
    :
    Keeps start options runs E F (register_client env metadata client_metadata policy) fun _ => F := by
  unfold OAuth.register_client
  split
  · exact .fail _
  · refine .bind (.send env fun events _ => .bare rfl (by simp)) fun response => ?_
    split_ifs
    · exact .fail _
    · split
      · exact .fail _
      · split
        · exact .pure fun _ holds => holds
        · exact .fail _

end

section
variable {Url : Type} [DecidableEq Url]

theorem assert_server_matches_ok {stored current : ServerInformation Url} (issuer : stored.issuer.isSome = true)
    (issuer' : current.issuer.isSome = true) (ok : assert_server_matches stored current = .ok ()) : stored = current := by
  unfold assert_server_matches at ok
  split_ifs at ok with differs
  simp only [not_or,not_and,ne_eq,not_not] at differs
  obtain ⟨issuers,urls,endpoints⟩ := differs
  cases stored
  cases current
  rw [ServerInformation.mk.injEq]
  exact ⟨issuers issuer issuer',urls,endpoints⟩

def Linked (client : OAuthClientInformation Url) (current : ServerInformation Url) (store : Store Url) : Prop :=
  store.client = some client ∧ client.authorization_server_information = some current

variable [UrlText Url] (env : Environment Url) {start : List (Event Url)} {options : AuthOptions Url} {runs : Nat}
  {E : Store Url → Prop} {d : Discovered Url}

theorem Keeps.find_client {client_metadata : OAuthClientMetadata Url} :
    Keeps start options runs (fun _ => True) (fun _ => True) (find_client env options d client_metadata)
      fun client => Linked client d.current_server := by
  unfold OAuth.find_client
  refine .bind (.fromStore _) fun held => ?_
  cases held with
  | none =>
    dsimp only
    split_ifs
    · exact .fail _
    · refine .bind (.register_client env) fun registered => .bind ?_ fun _ => .pure fun store linked => linked
      refine .record rfl (fun _ same => by cases same) ?_ (fun _ _ _ => trivial) fun store _ => ⟨rfl,rfl⟩
      exact fun events consistent _ unregistered => consistent.save_client unregistered.2.symm rfl rfl
  | some client =>
    -- the stored client carries the server that it was registered at, so the check is always made
    refine .known (fun store => (store.client = some client ∧ ∀ server, store.server = some server →
      client.authorization_server_information = some server) ∧
      ∃ pin, client.authorization_server_information = some pin ∧ pin.issuer.isSome = true) ?_
      (.assume fun ⟨pin,pinned,issuer⟩ => ?_)
    · rintro _ consistent - ⟨-,held⟩
      obtain ⟨pin,pinned,issuer,servers,-⟩ := consistent.pinned client held.symm
      exact ⟨⟨held.symm,fun server known => servers server known ▸ pinned⟩,pin,pinned,issuer⟩
    simp only [pinned,any_some,issuer,if_true]
    refine .bind (.fromStore _) fun found => ?_
    cases found with
    | none =>
      refine .bind (.pure fun store missing => ?_) fun _ => .pure fun store linked => linked
      have absent := missing.2
      unfold stored_server at absent
      rw [pinned] at absent
      cases held : store.server <;> rw [held] at absent <;> cases absent
    | some found =>
      refine .bind (.lift _) fun _ => .pure fun store linked => ?_
      obtain ⟨⟨⟨registered,servers⟩,own⟩,matched⟩ := linked
      have same : found = pin := by
        unfold stored_server at own
        rw [pinned] at own
        cases held : store.server with
        | none => rw [held] at own; exact some.inj own
        | some server =>
          rw [held] at own
          exact (some.inj own).trans (some.inj ((servers server held).symm.trans rfl))
      obtain rfl := same
      exact ⟨registered,pinned.trans (congrArg some (assert_server_matches_ok issuer rfl matched))⟩

omit [DecidableEq Url] in
theorem credentials_ok {request : TokenRequest Url} {form form' : List (String × String)} {resource : Option Url}
    (ok : request.credentials form resource = .ok (form',headers)) :
    (∀ name value, (name,value) ∈ form' → (name,value) ∈ form ∨ name = "client_id" ∨ name = "resource" ∨
      name = "client_secret" ∧ request.client.client_secret = some value) ∧
    ∀ name client_id secret, (name,HeaderValue.Basic client_id secret) ∈ headers →
      request.client.client_secret = some secret := by
  obtain ⟨⟨shown,own⟩,applied,ok⟩ := Result.bind_ok.mp ok
  have authenticated : (∀ name value, (name,value) ∈ shown → (name,value) ∈ form ∨ name = "client_id" ∨
      name = "client_secret" ∧ request.client.client_secret = some value) ∧
      ∀ name client_id secret, (name,HeaderValue.Basic client_id secret) ∈ own →
        request.client.client_secret = some secret := by
    have confidential {secret : String} (same : request.client.client_secret.getD "" = secret) (shown : secret ≠ "") :
        request.client.client_secret = some secret := by
      cases held : request.client.client_secret with
      | none => rw [held] at same; exact absurd same.symm shown
      | some => rw [held] at same; exact congrArg some same
    unfold apply_client_auth at applied
    dsimp only at applied
    split at applied
    · split_ifs at applied with empty
      cases applied
      refine ⟨fun name value mem => .inl mem,fun name client_id secret mem => ?_⟩
      obtain ⟨-,-,rfl⟩ : name = "authorization" ∧ client_id = request.client.client_id ∧
        secret = request.client.client_secret.getD "" := by simpa using mem
      exact confidential rfl empty
    · cases applied
      refine ⟨fun name value mem => ?_,fun name client_id secret mem => by simp at mem⟩
      split_ifs at mem with empty
      · rcases mem_append.mp mem with given | added
        · exact .inl given
        · obtain ⟨rfl,-⟩ := mk.inj (mem_singleton.mp added)
          exact .inr (.inl rfl)
      · rcases mem_append.mp mem with before | added
        · rcases mem_append.mp before with given | added
          · exact .inl given
          · obtain ⟨rfl,-⟩ := mk.inj (mem_singleton.mp added)
            exact .inr (.inl rfl)
        · obtain ⟨rfl,rfl⟩ := mk.inj (mem_singleton.mp added)
          exact .inr (.inr ⟨rfl,confidential rfl empty⟩)
    · cases applied
      refine ⟨fun name value mem => ?_,fun name client_id secret mem => by simp at mem⟩
      rcases mem_append.mp mem with given | added
      · exact .inl given
      · obtain ⟨rfl,-⟩ := mk.inj (mem_singleton.mp added)
        exact .inr (.inl rfl)
  cases resource with
  | none =>
    cases ok
    exact ⟨fun name value mem => (authenticated.1 name value mem).imp_right fun or => or.imp_right .inr,
      authenticated.2⟩
  | some =>
    cases ok
    refine ⟨fun name value mem => ?_,authenticated.2⟩
    rcases mem_append.mp mem with kept | added
    · exact (authenticated.1 name value (mem_of_mem_filter kept)).imp_right fun or => or.imp_right .inr
    · obtain ⟨rfl,-⟩ := mk.inj (mem_singleton.mp added)
      exact .inr (.inr (.inl rfl))

omit [DecidableEq Url] in
theorem Bound.token {events : List (Event Url)} {client : OAuthClientInformation Url} {form form' : List (String × String)}
    {resource : Option Url} (linked : Linked client d.current_server (stored events))
    (ok : (token_request options d client).credentials form resource = .ok (form',headers))
    (names : ∀ name value, (name,value) ∈ form → name ≠ "client_secret")
    (code : ∀ name value, (name,value) ∈ form → name = "code" ∨ name = "code_verifier" →
      ∃ code_verifier, SavedTogether events d.current_server code_verifier ∧
        (name = "code" → options.authorization_code = some value) ∧ (name = "code_verifier" → value = code_verifier) ∧
        (∀ state, (stored events).state = some state → options.callback_state = some state) ∧
        ∀ issuer, options.callback_issuer = some issuer → d.current_server.issuer = some issuer)
    (refresh : ∀ refresh_token, ("refresh_token",refresh_token) ∈ form →
      ∃ tokens, (stored events).tokens = some tokens ∧ tokens.refresh_token = some refresh_token ∧
        tokens.authorization_server_information = some d.current_server) :
    Bound events options ⟨.POST,d.metadata.token_endpoint,headers,.Form form'⟩ := by
  obtain ⟨fields,basic⟩ := credentials_ok ok
  refine ⟨fun name value mem kind => ?_,fun token mem => ?_,fun secret shows => ?_⟩
  · rcases fields name value mem with given | rfl | rfl | ⟨rfl,-⟩
    · obtain ⟨code_verifier,together,rest⟩ := code name value given kind
      exact ⟨d.current_server,code_verifier,together,rfl,rest⟩
    all_goals simp at kind
  · rcases fields _ _ mem with given | other | other | ⟨other,-⟩
    · obtain ⟨tokens,held,own,saved⟩ := refresh token given
      exact ⟨tokens,d.current_server,last_tokens held,own,saved,rfl⟩
    all_goals simp at other
  · have own : client.client_secret = some secret := by
      rcases shows with mem | ⟨name,client_id,mem⟩
      · rcases fields _ _ mem with given | other | other | ⟨-,own⟩
        · exact absurd rfl (names _ _ given)
        · simp at other
        · simp at other
        · exact own
      · exact basic name client_id secret mem
    exact ⟨client,d.current_server,last_client linked.1,own,linked.2,rfl⟩

omit [DecidableEq Url] in
theorem Keeps.token_send {request : TokenRequest Url} {form : List (String × String)} {resource : Option Url}
    {what : String} {F : Store Url → Prop}
    (fits : ∀ events form' headers, At start options runs (fun store => E store ∧ F store) events →
      request.credentials form resource = .ok (form',headers) →
      Bound events options ⟨.POST,request.metadata.token_endpoint,headers,.Form form'⟩) :
    Keeps start options runs E F (request.send env form resource what) fun _ => F := by
  refine .bind (.lift _) fun credentials => ?_
  obtain ⟨form',headers⟩ := credentials
  refine .assume fun ok => .bind (.send env fun events before => fits events form' headers before ok) fun response => ?_
  split_ifs
  · exact .fail _
  · split
    · exact .fail _
    · split
      · exact .pure fun _ holds => holds
      · exact .fail _

/-! ### The flow -/

variable {client : OAuthClientInformation Url}

omit [DecidableEq Url] [UrlText Url] in
theorem required_ok {value : Option α} {message : String} (ok : required value message = .ok a) : value = some a := by
  cases value with
  | none => cases ok
  | some => exact congrArg some (Except.ok.inj ok)

omit [DecidableEq Url] [UrlText Url] in
theorem Linked.stored {events : List (Event Url)} (consistent : Consistent events)
    (linked : Linked client d.current_server (stored events)) :
    (∀ server, (OAuth.stored events).server = some server → server = d.current_server) ∧
      ∀ tokens, (OAuth.stored events).tokens = some tokens →
        tokens.authorization_server_information = some d.current_server := by
  obtain ⟨_,pinned,-,servers,tokens⟩ := consistent.pinned client linked.1
  obtain rfl := some.inj (linked.2.symm.trans pinned)
  exact ⟨servers,tokens⟩

omit [DecidableEq Url] [UrlText Url] in
theorem Keeps.save_tokens {F : Store Url → Prop} (tokens : OAuthTokens Url) :
    Keeps start options runs (Linked client d.current_server) F
      (Logged.record (.SavedTokens { tokens with authorization_server_information := some d.current_server }))
      fun _ _ => True := by
  refine .record rfl (fun _ same => by cases same) ?_ (fun store linked _ => linked) fun _ _ => trivial
  exact fun events consistent linked _ => consistent.save_tokens linked.1 linked.2 rfl

structure Answers (options : AuthOptions Url) (current : ServerInformation Url) (code_verifier : String)
    (store : Store Url) : Prop where
  verifier : store.code_verifier = some code_verifier
  state : ∀ state, store.state = some state → options.callback_state = some state
  issuer : ∀ issuer, options.callback_issuer = some issuer → current.issuer = some issuer

omit [DecidableEq Url] in
theorem Keeps.exchange (grant : AuthorizationCodeGrant Url) (asked : options.authorization_code = some grant.code) :
    Keeps start options runs (Linked client d.current_server) (Answers options d.current_server grant.code_verifier)
      ((token_request options d client).exchange env grant) fun _ _ => True := by
  refine .bind (.lift _) fun _ => .forget (.token_send env fun events form' headers before ok => ?_)
  obtain ⟨sound,linked,answers,-⟩ := before
  obtain ⟨server,known,together⟩ := sound.consistent.paired _ answers.verifier
  obtain rfl := (linked.stored sound.consistent).1 server known
  refine .token linked ok ?_ ?_ ?_
  · intro name value mem
    simp only [mem_cons,mk.injEq,not_mem_nil,or_false] at mem
    rcases mem with ⟨rfl,-⟩ | ⟨rfl,-⟩ | ⟨rfl,-⟩ | ⟨rfl,-⟩ <;> decide
  · intro name value mem kind
    refine ⟨grant.code_verifier,together,?_,?_,answers.state,answers.issuer⟩
    · rintro rfl
      obtain rfl : value = grant.code := by simpa using mem
      exact asked
    · rintro rfl
      simpa using mem
  · intro token mem
    simp at mem

theorem Keeps.exchange_code {code : String} (asked : options.authorization_code = some code) :
    Keeps start options runs (Linked client d.current_server) (fun _ => True) (exchange_code env options d client code)
      fun _ _ => True := by
  refine .bind (.fromStore _) fun expected => ?_
  split_ifs with unmatched
  · exact .fail _
  refine .bind (.fromStore _) fun found => .bind (.lift _) fun server => ?_
  dsimp only
  split_ifs with other
  · exact .fail _
  refine .bind (.lift _) fun _ => .bind (.fromStore _) fun held => .bind (.lift _) fun code_verifier => ?_
  refine .bind (.observe _) fun redirect => .bind (.lift _) fun redirect_url => ?_
  have exchanged : Keeps start options runs (Linked client d.current_server) _ _ fun _ _ => True :=
    .exchange env ⟨code,code_verifier,redirect_url,d.resource⟩ asked
  refine .bind (.known (Answers options d.current_server code_verifier) ?_ exchanged) fun tokens =>
    .bind (.save_tokens tokens) fun _ => .pure fun _ _ => trivial
  rintro _ consistent linked ⟨⟨⟨⟨⟨⟨⟨-,state⟩,own⟩,known⟩,_⟩,verifier⟩,saved⟩,-⟩
  have saved := verifier.symm.trans (required_ok saved)
  obtain ⟨pending,stored,-⟩ := consistent.paired _ saved
  obtain rfl := (linked.stored consistent).1 pending stored
  have same : server = d.current_server := by
    have own := own.symm.trans (required_ok known)
    rw [stored_server,stored] at own
    exact (some.inj own).symm
  subst same
  refine ⟨saved,fun value held => ?_,fun issuer given => ?_⟩
  · rw [state,held] at unmatched
    simpa using unmatched
  · rw [given] at other
    have same : issuer = d.current_server.issuer.getD d.metadata.issuer := by simpa using other
    rw [same]
    rfl

theorem Keeps.try_refresh : Keeps start options runs (Linked client d.current_server) (fun _ => True)
    (try_refresh env options d client) fun _ _ => True := by
  refine .bind (.fromStore _) fun held => ?_
  cases held with
  | none => exact .pure fun _ _ => trivial
  | some tokens =>
    dsimp only
    split
    · exact .pure fun _ _ => trivial
    · next refresh_token owned =>
      refine .bind (.fromStore _) fun fallback => ?_
      split
      · refine .bind (G := fun _ _ => True) ?_ fun _ => .pure fun _ _ => trivial
        refine .record rfl (fun _ same => by cases same) ?_ (fun store linked _ => linked)
          fun _ _ => trivial
        exact fun events consistent _ _ => consistent.discard_tokens
      · refine .bind (.lift _) fun _ => .bind (.outcome (G := fun _ _ => True) ?_) fun refreshed => ?_
        · refine .bind (.lift _) fun _ => .bind (.token_send env fun events form' headers before ok => ?_)
            fun tokens => .pure fun _ _ => trivial
          obtain ⟨sound,linked,⟨⟨⟨-,held⟩,-⟩,-⟩,-⟩ := before
          refine .token linked ok ?_ ?_ ?_
          · intro name value mem
            simp only [mem_cons,mk.injEq,not_mem_nil,or_false] at mem
            rcases mem with ⟨rfl,-⟩ | ⟨rfl,-⟩ <;> decide
          · intro name value mem kind
            simp only [mem_cons,mk.injEq,not_mem_nil,or_false] at mem
            rcases mem with ⟨rfl,-⟩ | ⟨rfl,-⟩ <;> simp at kind
          · intro token mem
            obtain rfl : token = refresh_token := by simpa using mem
            exact ⟨tokens,held.symm,owned,(linked.stored sound.consistent).2 tokens held.symm⟩
        · cases refreshed with
          | ok refreshed => exact .bind (.save_tokens refreshed) fun _ => .pure fun _ _ => trivial
          | error =>
            dsimp only
            split_ifs
            · exact .pure fun _ _ => trivial
            · exact .fail _

omit [DecidableEq Url] [UrlText Url] in
theorem Keeps.silent {event : Event Url} (quiet : isStarted event = false) (other : ∀ request, event ≠ .Sent request)
    (pending : touchesPending event = false) (same : ∀ store : Store Url, (store.after event).client = store.client ∧
      (store.after event).tokens = store.tokens ∧ (store.after event).server = store.server ∧
      (store.after event).code_verifier = store.code_verifier) :
    Keeps start options runs (Linked client d.current_server) (fun _ => True) (Logged.record event) fun _ _ => True := by
  refine .record quiet other ?_ ?_ fun _ _ => trivial
  · intro events consistent _ _
    obtain ⟨clients,tokens,servers,verifiers⟩ := same (stored events)
    exact consistent.quiet pending clients tokens servers verifiers
  · exact fun store linked _ => ⟨(same store).1.trans linked.1,linked.2⟩

omit [DecidableEq Url] [UrlText Url] in
theorem Keeps.save_pending {rest : Flow Url α} {G : α → Store Url → Prop} (verifier : String)
    (holds : Keeps start options runs (Linked client d.current_server) (fun _ => True) rest G) :
    Keeps start options runs (Linked client d.current_server) (fun _ => True) (do
      Logged.record (.SavedServer d.current_server)
      Logged.record (.SavedVerifier verifier)
      rest) G := by
  refine Logged.Spec.bind (m := fun _ events => ∃ earlier, At start options runs (Linked client d.current_server) earlier ∧
    events = earlier ++ [.SavedServer d.current_server]) (Logged.Spec.record fun events before => ?_)
    fun _ => Logged.Spec.bind (Logged.Spec.record ?_) fun _ => holds
  · exact ⟨events,before.less,rfl⟩
  · rintro _ ⟨earlier,⟨sound,linked⟩,rfl⟩
    have saved := sound.consistent.save_pending linked.1 linked.2 verifier
    have same : stored (earlier ++ [.SavedServer d.current_server] ++ [.SavedVerifier verifier]) =
        { stored earlier with server := some d.current_server,code_verifier := some verifier } := by
      rw [stored_append,stored_append]
      rfl
    refine ⟨⟨saved,?_⟩,?_,trivial⟩
    · exact (sound.bounded.quiet rfl fun _ same => by cases same).quiet rfl fun _ same => by cases same
    · rw [same]
      exact linked

omit [DecidableEq Url] in
theorem Keeps.begin_authorization {client_metadata : OAuthClientMetadata Url} :
    Keeps start options runs (Linked client d.current_server) (fun _ => True)
      (begin_authorization env options d client client_metadata) fun _ _ => True := by
  refine .bind (.observe _) fun redirect_url => .bind (.forget (.lift _)) fun redirect_url =>
    .bind (.observe _) fun verifier => .bind (.answer _) fun state => ?_
  have redirect : Keeps start options runs (Linked client d.current_server) (fun _ => True) (do
      let url ← Logged.lift (start_authorization d.metadata client redirect_url ⟨verifier,env.challenge verifier⟩
        (wanted_scope options d client_metadata) state d.resource)
      Logged.record (.SavedServer d.current_server)
      Logged.record (.SavedVerifier verifier)
      Logged.record (.Redirected url)
      Logged.answer fun events => env.redirect_to_authorization events url
      return AuthResult.Redirect) fun _ _ => True := by
    refine .bind (.forget (.lift _)) fun url => .save_pending verifier ?_
    exact .bind (.silent rfl (fun _ same => by cases same) rfl fun _ => ⟨rfl,rfl,rfl,rfl⟩) fun _ =>
      .bind (.answer _) fun _ => .pure fun _ _ => trivial
  dsimp only
  split
  · next state _ =>
    exact .bind (.silent rfl (fun _ same => by cases same) rfl fun _ => ⟨rfl,rfl,rfl,rfl⟩) fun _ => redirect
  · exact redirect

omit [DecidableEq Url] [UrlText Url] in
theorem Keeps.linked {x : Flow Url α} {G : α → Store Url → Prop}
    (holds : Keeps start options runs (Linked client d.current_server) (fun _ => True) x G) :
    Keeps start options runs (fun _ => True) (Linked client d.current_server) x fun _ _ => True :=
  (holds.strengthen fun _ before => ⟨before.1,before.2.2,trivial⟩).relax (fun _ failed => ⟨failed.1,trivial⟩)
    |>.weaken fun _ _ reached => ⟨reached.1,trivial,trivial⟩

theorem auth_internal_sound : Logged.Spec (Sound start options (runs + 1)) (Sound start options runs)
    (auth_internal env options) fun _ => Sound start options (runs + 1) := by
  refine Logged.Spec.bind (m := fun _ => At start options (runs + 1) fun _ => True ∧ True)
    (Logged.Spec.record fun events sound => ⟨sound.started,trivial,trivial⟩) fun _ => ?_
  suffices flow : Keeps start options (runs + 1) (fun _ => True) (fun _ => True) _ fun _ _ => True from
    (flow.relax fun _ failed => failed.1).weaken fun _ _ reached => reached.1
  refine .bind (.discover env) fun d => .bind (.observe _) fun client_metadata => .bind (.find_client env) fun client => ?_
  refine .linked (G := fun _ _ => True) ?_
  split
  · next code asked => exact .exchange_code env asked
  · refine .bind (.try_refresh env) fun refreshed => ?_
    split
    · exact .pure fun _ _ => trivial
    · exact .begin_authorization env

omit [DecidableEq Url] [UrlText Url] in
theorem Sound.fresh (consistent : Consistent start) : Sound start options 0 start :=
  ⟨consistent,[],(append_nil _).symm,Nat.le_refl _,fun _ _ _ split => by simp at split⟩

omit [DecidableEq Url] [UrlText Url] in
theorem Sound.more {events : List (Event Url)} (sound : Sound start options runs events) (le : runs ≤ most) :
    Sound start options most events := by
  obtain ⟨added,split,count,bound⟩ := sound.bounded
  exact ⟨sound.consistent,added,split,count.trans le,bound⟩

theorem auth_sound : Logged.Spec (Sound start options 2) (Sound start options 0) (auth env options)
    fun _ => Sound start options 2 := by
  have again {scope : InvalidateScope} (consistent : ∀ events : List (Event Url), Consistent events →
      Consistent (events ++ [.Invalidated scope])) :
      Logged.Spec (Sound start options 2) (Sound start options 1) (do
        Logged.record (.Invalidated scope)
        auth_internal env options) fun _ => Sound start options 2 := by
    refine Logged.Spec.bind (Logged.Spec.record fun events sound => ?_) fun _ => auth_internal_sound env
    exact ⟨consistent _ sound.consistent,sound.bounded.quiet rfl fun _ same => by cases same⟩
  refine Logged.Spec.bind (m := fun _ => Sound start options 1)
    (Logged.Spec.outcome (auth_internal_sound env) fun _ _ kept => kept) fun result => ?_
  have ends (error : McpError) : Logged.Spec (Sound start options 2) (Sound start options 1)
      (Logged.fail error : Flow Url AuthResult) fun _ => Sound start options 2 :=
    Logged.Spec.fail fun _ sound => sound.more (by omega)
  split
  · exact Logged.Spec.pure fun _ sound => sound.more (by omega)
  · split_ifs
    · exact again fun _ _ => .discard_all
    · exact again fun _ => Consistent.discard_tokens
    · exact ends _
  · exact ends _

/-- Credentials stay with their server: along every sequence of calls, whatever the network and the application answer,
each request of a call is bound when it is sent, and the call runs the flow at most twice. -/
theorem credentials_bound (calls : List (AuthOptions Url)) (options : AuthOptions Url) :
    ∃ added, (auth env options (auths env calls)).1 = auths env calls ++ added ∧ added.countP isStarted ≤ 2 ∧
      ∀ before request after, added = before ++ .Sent request :: after →
        Bound (auths env calls ++ before) options request := by
  have reached : Consistent (auths env calls) := by
    induction calls using reverseRecOn with
    | nil => exact Consistent.start
    | append_singleton calls last ih =>
      have grown : auths env (calls ++ [last]) = (auth env last (auths env calls)).1 := by simp [auths]
      rw [grown]
      exact ((auth_sound env).final (.fresh ih)).consistent
  exact ((auth_sound env).final (.fresh reached)).bounded

end

end Ferrin.Mcp.OAuth
