import Ferrin.Mcp.OAuth.Provider

/-!
Requests of the OAuth flow and the discovery of metadata: of the protected
resource and of its authorization server.
-/
namespace Ferrin.Mcp.OAuth
open Ferrin.Library Ferrin.SecureUrl
open Logged (answer fail lift)

/-! ### Requests -/

def json (from_str : String → Option JsonValue) (response : OAuthResponse) : Option JsonValue := from_str response.body

/-- `OAuthResponse::into_error`: the OAuth code of the body is kept. -/
def into_error (from_str : String → Option JsonValue) (response : OAuthResponse) (what : String) : McpError :=
  let text (name : String) := ((json from_str response).bind (·.get name)).bind (·.as_str)
  match text "error" with
  | some code =>
    let message := match text "error_description" with
      | some description => s!"{what} failed: {code}: {description}"
      | none => s!"{what} failed: {code}"
    .OAuth message (some code)
  | none => oauth s!"{what} failed (HTTP {response.status})"

section
variable {Url : Type} [UrlText Url] (env : Environment Url)
open UrlParts UrlText

def send (method : Method) (url : Url) (policy : UrlPolicy) (headers : List (String × HeaderValue))
    (body : RequestBody Url) : Flow Url OAuthResponse := do
  let _ ← answer fun events => match validate_url (env.lookup events) url policy with
    | .ok validated => .ok validated
    | .error error => .error (.Url (env.url_error error))
  let request : HttpRequest Url := ⟨method,url,headers,body⟩
  Logged.record (.Sent request)
  answer fun events => env.execute events request

def get_json (url : Url) (policy : UrlPolicy) (headers : List (String × HeaderValue)) : Flow Url (Option JsonValue) := do
  let response ← send env .GET url policy headers .Empty
  if response.is_client_error then return none
  else if !response.is_success then
    let host := (host_str url).getD ""
    fail (oauth s!"metadata request to {host} failed (HTTP {response.status})")
  else
    match json env.from_str response with
    | some value => return some value
    | none => fail (oauth "metadata response is not valid JSON")

def LATEST_PROTOCOL_VERSION : String := "2026-07-28"

def version_header : List (String × HeaderValue) := [("mcp-protocol-version",.Text LATEST_PROTOCOL_VERSION)]

def origin_url (url : Url) : Option Url := join url "/"

def protected_resource_metadata_urls (server_url : Url) : List Url :=
  match origin_url server_url with
  | none => []
  | some origin =>
    let own := if path server_url ≠ "/" ∧ path server_url ≠ "" then
        ((join origin s!"/.well-known/oauth-protected-resource{path server_url}").map
          (set_query · (query server_url))).toList
      else []
    let root := join origin "/.well-known/oauth-protected-resource"
    own ++ (if own.isEmpty then root.map (set_query · (query server_url)) else root).toList

/-- The first document among the candidates. -/
def probe_resource (policy : UrlPolicy) : List Url → Flow Url (Option (ProtectedResourceMetadata Url))
  | [] => return none
  | url :: rest => do
    match ← get_json env url policy version_header with
    | none => probe_resource policy rest
    | some value =>
      match env.resource_metadata value with
      | .ok metadata => return some metadata
      | .error error => fail (oauth s!"invalid protected resource metadata: {error}")

def discover_protected_resource_metadata (server_url : Url) (explicit_url : Option Url) (policy : UrlPolicy) :
    Flow Url (Option (ProtectedResourceMetadata Url)) :=
  probe_resource env policy (match explicit_url with
    | some url => [url]
    | none => protected_resource_metadata_urls server_url)

structure MetadataUrl (Url : Type) where
  url : Url
  openid : Bool
  expected_issuer : String

/-- `str::trim_end_matches('/')`. -/
def trimSlashes (text : String) : String := String.ofList (text.toList.rdropWhile (· = '/'))

def authorization_server_metadata_urls (authorization_server_url : Url) : List (MetadataUrl Url) :=
  match origin_url authorization_server_url with
  | none => []
  | some origin =>
    let path := trimSlashes (path authorization_server_url)
    let push (suffix : String) (openid : Bool) (issuer_path : String) : Option (MetadataUrl Url) :=
      (join origin suffix).map (⟨·,openid,s!"{ascii_origin authorization_server_url}{issuer_path}"⟩)
    (if path = "" then [
        push "/.well-known/oauth-authorization-server" false "",
        push "/.well-known/openid-configuration" true ""]
      else [
        push s!"/.well-known/oauth-authorization-server{path}" false path,
        push "/.well-known/oauth-authorization-server" false "",
        push s!"/.well-known/openid-configuration{path}" true path,
        push s!"{path}/.well-known/openid-configuration" true path]).reduceOption

def supports_s256 (metadata : AuthorizationServerMetadata Url) : Option Bool :=
  metadata.code_challenge_methods_supported.map (· |>.contains "S256")

def validate_metadata_url (url : Url) : Except McpError Unit :=
  if scheme url ∈ ["javascript","data","vbscript"] then .error (oauth "oauth metadata url uses an unsafe scheme")
  else .ok ()

def isStrings : JsonValue → Bool
  | .array values => values.all fun value => value.as_str.isSome
  | _ => false

def validate_openid (metadata : AuthorizationServerMetadata Url) : Except McpError Unit := do
  match ((metadata.extra.get "jwks_uri").bind (·.as_str)).bind fun text => (parse text : Option Url) with
  | none => .error (oauth "openid metadata requires a valid jwks_uri")
  | some jwks => validate_metadata_url jwks
  ["subject_types_supported","id_token_signing_alg_values_supported"].forM fun name =>
    if (metadata.extra.get name).any isStrings then .ok ()
    else .error (oauth s!"openid metadata requires {name}")

def validate_metadata (metadata : AuthorizationServerMetadata Url) (openid : Bool) : Except McpError Unit := do
  if metadata.authorization_endpoint.isNone ∨ metadata.response_types_supported.isNone then
    .error (oauth
      "authorization server metadata requires authorization_endpoint and response_types_supported")
  else .ok ()
  (metadata.authorization_endpoint.toList ++ [metadata.token_endpoint] ++ metadata.registration_endpoint.toList).forM
    validate_metadata_url
  if openid then validate_openid metadata else .ok ()

def check_document (authorization_server_url : Url) (candidate : MetadataUrl Url)
    (metadata : AuthorizationServerMetadata Url) : Except McpError (AuthorizationServerMetadata Url) := do
  validate_metadata metadata candidate.openid
  let issuer_matches := metadata.issuer = candidate.expected_issuer ∨
    (candidate.expected_issuer = ascii_origin authorization_server_url ∧
      metadata.issuer = s!"{candidate.expected_issuer}/")
  if ¬ issuer_matches then
    .error (oauth "authorization server metadata issuer does not match the discovery issuer")
  else if candidate.openid ∧ supports_s256 metadata ≠ some true then
    .error (oauth "authorization server does not support the S256 code challenge method required by MCP")
  else return metadata

/-- The first document among the candidates, which must pass its checks. -/
def probe_server (authorization_server_url : Url) (policy : UrlPolicy) :
    List (MetadataUrl Url) → Flow Url (Option (AuthorizationServerMetadata Url))
  | [] => return none
  | candidate :: rest => do
    match ← get_json env candidate.url policy version_header with
    | none => probe_server authorization_server_url policy rest
    | some value =>
      match env.server_metadata value with
      | .error error => fail (oauth s!"invalid authorization server metadata: {error}")
      | .ok metadata => some <$> lift (check_document authorization_server_url candidate metadata)

def discover_authorization_server_metadata (authorization_server_url : Url) (policy : UrlPolicy) :
    Flow Url (Option (AuthorizationServerMetadata Url)) :=
  probe_server env authorization_server_url policy (authorization_server_metadata_urls authorization_server_url)

def default_authorization_server_metadata (authorization_server_url : Url) :
    Except McpError (AuthorizationServerMetadata Url) := do
  let joined (base : Url) (path what : String) : Except McpError Url := match join base path with
    | some url => .ok url
    | none => .error (oauth s!"invalid {what}: relative URL with a cannot-be-a-base base")
  let origin ← joined authorization_server_url "/" "server url"
  let endpoint (path : String) := joined origin path "authorization server url"
  return {
    issuer := as_str authorization_server_url
    authorization_endpoint := some (← endpoint "/authorize")
    token_endpoint := ← endpoint "/token"
    registration_endpoint := some (← endpoint "/register")
    response_types_supported := some ["code"]
    grant_types_supported := none
    token_endpoint_auth_methods_supported := none
    code_challenge_methods_supported := some ["S256"]
    extra := [] }

end

end Ferrin.Mcp.OAuth
