import Mathlib.Data.List.Infix
import Ferrin.Mcp.OAuth.Discovery

/-!
The authorization flow: registration, the authorization URL, and the token
requests with the authentication of the client.
-/
namespace Ferrin.Mcp.OAuth
open Ferrin.Library Ferrin.SecureUrl
open Logged (fail lift)

structure Pkce where
  verifier : String
  challenge : String

/-! ### Client authentication -/

inductive ClientAuth where
  | Basic
  | Post
  | None

section
variable {Url : Type}

def select_client_auth (client : OAuthClientInformation Url) (metadata : Option (AuthorizationServerMetadata Url)) :
    ClientAuth :=
  if client.client_secret.isNone then .None
  else
    match metadata.bind (·.token_endpoint_auth_methods_supported) with
    | none => .Post
    | some methods =>
      if "client_secret_basic" ∈ methods then .Basic
      else if "client_secret_post" ∈ methods then .Post
      else if "none" ∈ methods then .None
      else .Post

/-- `apply_client_auth`: the form and the headers with what they gain. -/
def apply_client_auth (client : OAuthClientInformation Url) (metadata : Option (AuthorizationServerMetadata Url))
    (form : List (String × String)) (headers : List (String × HeaderValue)) :
    Except McpError (List (String × String) × List (String × HeaderValue)) :=
  let secret := client.client_secret.getD ""
  let form_id := form ++ [("client_id",client.client_id)]
  match select_client_auth client metadata with
  | .Basic =>
    if secret = "" then .error (oauth "basic client authentication requires a client secret")
    else if ¬ (client.client_id ++ ":" ++ secret).toList.all (·.toNat < 256) then
      .error (oauth "basic client credentials must fit in Latin-1")
    else .ok (form,headers ++ [("authorization",.Basic client.client_id secret)])
  | .Post => .ok (if secret = "" then form_id else form_id ++ [("client_secret",secret)],headers)
  | .None => .ok (form_id,headers)

end

section
variable {Url : Type} [UrlText Url] (env : Environment Url)
open UrlParts UrlText

def resource_indicator (resource : Url) : String :=
  if path resource = "/" ∧ (as_str resource).toList.getLast? = some '/' then trimSlashes (as_str resource)
  else as_str resource

def start_authorization (metadata : AuthorizationServerMetadata Url) (client : OAuthClientInformation Url)
    (redirect_url : Url) (pkce : Pkce) (scope state : Option String) (resource : Option Url) : Except McpError Url := do
  match metadata.authorization_endpoint with
  | none => .error (oauth "authorization server publishes no authorization endpoint")
  | some endpoint => do
    validate_metadata_url endpoint
    if ¬ metadata.response_types_supported.any (·.contains "code") then
      .error (oauth "authorization server does not support the code response type")
    else if supports_s256 metadata ≠ some true then
      .error (oauth "authorization server does not support the S256 code challenge method")
    else
      let state := state.filter (· ≠ "")
      let scope := scope.filter (· ≠ "")
      let reserved := ["response_type","client_id","code_challenge","code_challenge_method","redirect_uri"]
      let existing := (query_pairs endpoint).filter fun (name,_) =>
        name ∉ reserved && !(name = "state" && state.isSome) && !(name = "scope" && scope.isSome) &&
          !(name = "resource" && resource.isSome)
      let consent := scope.any fun scope => decide ("offline_access".toList <:+: scope.toList)
      return set_query_pairs endpoint (existing ++
        [("response_type","code"),("client_id",client.client_id),("code_challenge",pkce.challenge),
          ("code_challenge_method","S256"),("redirect_uri",as_str redirect_url)] ++
        (state.map ("state",·)).toList ++ (scope.map ("scope",·)).toList ++
        (if consent then [("prompt","consent")] else []) ++
        (resource.map fun resource => ("resource",resource_indicator resource)).toList)

/-- `TokenRequest`, with what standard client authentication reads of the metadata that was discovered. -/
structure TokenRequest (Url : Type) where
  metadata : AuthorizationServerMetadata Url
  client : OAuthClientInformation Url
  policy : UrlPolicy
  authentication : Option (AuthorizationServerMetadata Url)

structure AuthorizationCodeGrant (Url : Type) where
  code : String
  code_verifier : String
  redirect_url : Url
  resource : Option Url

def TokenRequest.check_grant (request : TokenRequest Url) (grant : String) : Except McpError Unit :=
  if request.metadata.grant_types_supported.any (!·.contains grant) then
    .error (oauth s!"authorization server does not support the {grant} grant type")
  else .ok ()

def TokenRequest.credentials (request : TokenRequest Url) (form : List (String × String)) (resource : Option Url) :
    Except McpError (List (String × String) × List (String × HeaderValue)) := do
  let (form,headers) ← apply_client_auth request.client request.authentication form
    [("accept",.Text "application/json"),("content-type",.Text "application/x-www-form-urlencoded")]
  match resource with
  | none => return (form,headers)
  | some resource => return (form.filter (·.1 ≠ "resource") ++ [("resource",resource_indicator resource)],headers)

def TokenRequest.send (request : TokenRequest Url) (form : List (String × String)) (resource : Option Url)
    (what : String) : Flow Url (OAuthTokens Url) := do
  let (form,headers) ← lift (request.credentials form resource)
  let response ← OAuth.send env .POST request.metadata.token_endpoint request.policy headers (.Form form)
  if !response.is_success then fail (into_error env.from_str response what)
  else
    match json env.from_str response with
    | none => fail (oauth s!"{what} response is not valid JSON")
    | some value =>
      match env.tokens value with
      | .ok tokens => return tokens
      | .error error => fail (oauth s!"invalid {what} response: {error}")

def TokenRequest.exchange (request : TokenRequest Url) (grant : AuthorizationCodeGrant Url) :
    Flow Url (OAuthTokens Url) := do
  lift (request.check_grant "authorization_code")
  request.send env [("grant_type","authorization_code"),("code",grant.code),("code_verifier",grant.code_verifier),
    ("redirect_uri",as_str grant.redirect_url)] grant.resource "token exchange"

/-- The previous refresh token is kept when the server does not rotate it. -/
def TokenRequest.refresh (request : TokenRequest Url) (refresh_token : String) (resource : Option Url) :
    Flow Url (OAuthTokens Url) := do
  lift (request.check_grant "refresh_token")
  let tokens ← request.send env [("grant_type","refresh_token"),("refresh_token",refresh_token)] resource "token refresh"
  return { tokens with refresh_token := tokens.refresh_token.or (some refresh_token) }

def register_client (metadata : AuthorizationServerMetadata Url) (client_metadata : OAuthClientMetadata Url)
    (policy : UrlPolicy) : Flow Url (OAuthClientInformation Url) :=
  match metadata.registration_endpoint with
  | none => fail (oauth "authorization server does not support dynamic client registration")
  | some endpoint => do
    let response ← send env .POST endpoint policy [("accept",.Text "application/json")] (.Json client_metadata)
    if !response.is_success then fail (into_error env.from_str response "client registration")
    else
      match json env.from_str response with
      | none => fail (oauth "client registration response is not valid JSON")
      | some value =>
        match env.client_information value with
        | .ok client => return client
        | .error error => fail (oauth s!"invalid client registration response: {error}")

end

end Ferrin.Mcp.OAuth
