import Ferrin.Mcp.OAuth.Flow

/-!
The orchestration of OAuth: discovery, then the exchange of a code, the refresh
of tokens or the start of an authorization, with the application's store.
-/
namespace Ferrin.Mcp.OAuth
open Ferrin.Library Ferrin.SecureUrl
open Logged (answer fail lift observe outcome record)

structure AuthOptions (Url : Type) where
  server_url : Url
  authorization_code : Option String
  callback_state : Option String
  callback_issuer : Option String
  scope : Option String
  resource_metadata_url : Option Url
  url_policy : UrlPolicy

section
variable {Url : Type} [DecidableEq Url]

def assert_server_matches (stored current : ServerInformation Url) : Except McpError Unit :=
  if (stored.issuer.isSome ∧ current.issuer.isSome ∧ stored.issuer ≠ current.issuer) ∨
      stored.authorization_server_url ≠ current.authorization_server_url ∨
      stored.token_endpoint ≠ current.token_endpoint then
    .error (oauth
      "authorization server metadata does not match the server that issued the stored credentials")
  else .ok ()

def stored_server (client : OAuthClientInformation Url) (store : Store Url) : Option (ServerInformation Url) :=
  store.server.or client.authorization_server_information

def is_transient : McpError → Bool
  | .OAuth _ (some code) => code ∉ ["invalid_client","invalid_grant","unauthorized_client"]
  | .OAuth _ none | .Transport _ => true
  | _ => false

def fromStore {α : Type} (slot : Store Url → α) : Flow Url α := observe fun events => slot (stored events)

def required {α : Type} (value : Option α) (message : String) : Except McpError α :=
  match value with
  | some value => .ok value
  | none => .error (oauth message)

/-- What a flow finds out before it touches credentials. -/
structure Discovered (Url : Type) where
  resource_metadata : Option (ProtectedResourceMetadata Url)
  resource : Option Url
  published : Option (AuthorizationServerMetadata Url)
  metadata : AuthorizationServerMetadata Url
  authorization_server_url : Url

def Discovered.current_server (d : Discovered Url) : ServerInformation Url :=
  ⟨some d.metadata.issuer,d.authorization_server_url,d.metadata.token_endpoint⟩

end

section
variable {Url : Type} [DecidableEq Url] [UrlText Url] (env : Environment Url) (options : AuthOptions Url)
open UrlParts UrlText

def discover : Flow Url (Discovered Url) := do
  if options.resource_metadata_url.any fun url => !sameOrigin (origin url) (origin options.server_url) then
    fail (oauth "protected resource metadata must have the same origin as the server")
  else
    let found ← outcome (discover_protected_resource_metadata env options.server_url
      options.resource_metadata_url options.url_policy)
    let resource_metadata := found.toOption.join
    let authorization_server_url :=
      ((resource_metadata.bind (·.authorization_servers)).bind (·.head?)).getD options.server_url
    let resource ← answer fun events => env.validate_resource_url events (without_fragment options.server_url)
      (resource_metadata.map (·.resource))
    answer fun events => env.validate_authorization_server_url events options.server_url
      authorization_server_url
    let published ← discover_authorization_server_metadata env authorization_server_url options.url_policy
    let metadata ← match published with
      | some metadata => pure metadata
      | none => lift (default_authorization_server_metadata authorization_server_url)
    return ⟨resource_metadata,resource,published,metadata,authorization_server_url⟩

def wanted_scope (d : Discovered Url) (client_metadata : OAuthClientMetadata Url) : Option String :=
  let offered := (d.resource_metadata.bind (·.scopes_supported)).map (" ".intercalate ·)
  ((options.scope.filter (· ≠ "")).or (offered.filter (· ≠ ""))).or client_metadata.scope

def find_client (d : Discovered Url) (client_metadata : OAuthClientMetadata Url) : Flow Url (OAuthClientInformation Url) := do
  match ← fromStore (·.client) with
  | some client =>
    if client.authorization_server_information.any (·.issuer.isSome) then
      match ← fromStore (stored_server client) with
      | some stored => lift (assert_server_matches stored d.current_server)
      | none => pure ()
      return client
    else return client
  | none =>
    if options.authorization_code.isSome then
      fail (oauth
        "existing client information is required when exchanging an authorization code")
    else
      let registered ← register_client env d.metadata
        { client_metadata with scope := wanted_scope options d client_metadata } options.url_policy
      let registered := { registered with authorization_server_information := some d.current_server }
      record (.SavedClient registered)
      return registered

def token_request (d : Discovered Url) (client : OAuthClientInformation Url) : TokenRequest Url :=
  ⟨d.metadata,client,options.url_policy,d.published⟩

def exchange_code (d : Discovered Url) (client : OAuthClientInformation Url) (code : String) : Flow Url AuthResult := do
  let expected ← fromStore (·.state)
  if expected.any fun expected => options.callback_state ≠ some expected then
    fail (oauth "authorization callback state does not match the stored state")
  else
    let stored ← lift (required (← fromStore (stored_server client))
      "stored authorization server information is required when exchanging an authorization code")
    let expected_issuer := stored.issuer.getD d.metadata.issuer
    if options.callback_issuer.any (· ≠ expected_issuer) then
      fail (oauth "authorization callback issuer does not match the stored issuer")
    else
      lift (assert_server_matches stored d.current_server)
      let code_verifier ← lift (required (← fromStore (·.code_verifier))
        "no code verifier is stored for the pending authorization")
      let redirect_url ← lift (required (← observe env.redirect_url)
        "a redirect url is required to exchange an authorization code")
      let tokens ← (token_request options d client).exchange env ⟨code,code_verifier,redirect_url,d.resource⟩
      record (.SavedTokens { tokens with authorization_server_information := some d.current_server })
      return .Authorized

def try_refresh (d : Discovered Url) (client : OAuthClientInformation Url) : Flow Url (Option AuthResult) := do
  match ← fromStore (·.tokens) with
  | none => return none
  | some tokens =>
    match tokens.refresh_token with
    | none => return none
    | some refresh_token =>
      let fallback ← fromStore (stored_server client)
      match tokens.authorization_server_information.or fallback with
      | none =>
        record (.Invalidated .Tokens)
        return none
      | some stored =>
        lift (assert_server_matches stored d.current_server)
        match ← outcome ((token_request options d client).refresh env refresh_token d.resource) with
        | .ok refreshed =>
          record (.SavedTokens { refreshed with authorization_server_information := some d.current_server })
          return some .Authorized
        | .error error => if is_transient error then return none else fail error

def begin_authorization (d : Discovered Url) (client : OAuthClientInformation Url)
    (client_metadata : OAuthClientMetadata Url) : Flow Url AuthResult := do
  let redirect_url ← lift (required (← observe env.redirect_url)
    "a redirect url is required to start authorization")
  let verifier ← observe env.verifier
  let state ← answer env.state
  match state.filter (· ≠ "") with
  | some state => record (.SavedState state)
  | none => pure ()
  let url ← lift (start_authorization d.metadata client redirect_url ⟨verifier,env.challenge verifier⟩
    (wanted_scope options d client_metadata) state d.resource)
  record (.SavedServer d.current_server)
  record (.SavedVerifier verifier)
  record (.Redirected url)
  answer fun events => env.redirect_to_authorization events url
  return .Redirect

def auth_internal : Flow Url AuthResult := do
  record .Started
  let d ← discover env options
  let client_metadata ← observe env.client_metadata
  let client ← find_client env options d client_metadata
  match options.authorization_code with
  | some code => exchange_code env options d client code
  | none =>
    match ← try_refresh env options d client with
    | some result => return result
    | none => begin_authorization env options d client client_metadata

/-- Rejected clients are discarded with all that is stored, rejected grants with their tokens, for one more try. -/
def auth : Flow Url AuthResult := do
  match ← outcome (auth_internal env options) with
  | .ok result => return result
  | .error (.OAuth message (some code)) =>
    if code = "invalid_client" ∨ code = "unauthorized_client" then
      record (.Invalidated .All)
      auth_internal env options
    else if code = "invalid_grant" then
      record (.Invalidated .Tokens)
      auth_internal env options
    else fail (.OAuth message (some code))
  | .error error => fail error

/-- The events after a sequence of calls on an empty store. A call that fails leaves what it did. -/
def auths (env : Environment Url) (calls : List (AuthOptions Url)) : List (Event Url) :=
  calls.foldl (fun events options => (auth env options events).1) []

end

end Ferrin.Mcp.OAuth
