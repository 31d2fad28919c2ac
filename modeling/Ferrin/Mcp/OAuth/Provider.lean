import Ferrin.Library.Logged
import Ferrin.Mcp.Client
import Ferrin.SecureUrl.Policy

/-!
The data of the OAuth flow, the store of an application that keeps what it is
given, and the surroundings of a flow: the transport, the user and the libraries.
-/
namespace Ferrin.Mcp.OAuth
open Ferrin.Library Ferrin.SecureUrl

/-- What else the `url` crate computes of a URL. -/
class UrlText (Url : Type) extends UrlParts Url where
  parse : String → Option Url
  as_str : Url → String
  path : Url → String
  query : Url → Option String
  set_query : Url → Option String → Url
  without_fragment : Url → Url
  ascii_origin : Url → String
  query_pairs : Url → List (String × String)
  set_query_pairs : Url → List (String × String) → Url

/-- `McpError::oauth`. -/
def oauth (message : String) : McpError := .OAuth message none

/-- `OAuthAuthorizationServerInformation`. -/
structure ServerInformation (Url : Type) where
  issuer : Option String
  authorization_server_url : Url
  token_endpoint : Url

structure OAuthTokens (Url : Type) where
  access_token : String
  id_token : Option String
  token_type : String
  expires_in : Option JsonNumber
  scope : Option String
  refresh_token : Option String
  authorization_server_information : Option (ServerInformation Url)

structure OAuthClientMetadata (Url : Type) where
  redirect_uris : List Url
  token_endpoint_auth_method : Option String
  grant_types : Option (List String)
  response_types : Option (List String)
  client_name : Option String
  client_uri : Option Url
  scope : Option String
  extra : JsonObject

structure OAuthClientInformation (Url : Type) where
  client_id : String
  client_secret : Option String
  client_id_issued_at : Option JsonNumber
  client_secret_expires_at : Option JsonNumber
  authorization_server_information : Option (ServerInformation Url)

structure AuthorizationServerMetadata (Url : Type) where
  issuer : String
  authorization_endpoint : Option Url
  token_endpoint : Url
  registration_endpoint : Option Url
  response_types_supported : Option (List String)
  grant_types_supported : Option (List String)
  token_endpoint_auth_methods_supported : Option (List String)
  code_challenge_methods_supported : Option (List String)
  extra : JsonObject

structure ProtectedResourceMetadata (Url : Type) where
  resource : Url
  authorization_servers : Option (List Url)
  scopes_supported : Option (List String)

inductive AuthResult where
  | Authorized
  | Redirect

inductive InvalidateScope where
  | All
  | Client
  | Tokens
  | Verifier

/-! ### Requests -/

inductive Method where
  | GET
  | POST

inductive RequestBody (Url : Type) where
  | Empty
  | Json (metadata : OAuthClientMetadata Url)
  | Form (fields : List (String × String))

inductive HeaderValue where
  | Text (text : String)
  | Basic (client_id client_secret : String)

structure HttpRequest (Url : Type) where
  method : Method
  url : Url
  headers : List (String × HeaderValue)
  body : RequestBody Url

structure OAuthResponse where
  status : Nat
  body : String

def OAuthResponse.is_success (response : OAuthResponse) : Bool := 200 ≤ response.status ∧ response.status < 300
def OAuthResponse.is_client_error (response : OAuthResponse) : Bool := 400 ≤ response.status ∧ response.status < 500

/-- What happens in a flow, as far as others see it. -/
inductive Event (Url : Type) where
  | Started
  | Sent (request : HttpRequest Url)
  | SavedClient (client : OAuthClientInformation Url)
  | SavedTokens (tokens : OAuthTokens Url)
  | SavedState (state : String)
  | SavedServer (server : ServerInformation Url)
  | SavedVerifier (code_verifier : String)
  | Redirected (url : Url)
  | Invalidated (scope : InvalidateScope)

structure Store (Url : Type) where
  client : Option (OAuthClientInformation Url)
  tokens : Option (OAuthTokens Url)
  code_verifier : Option String
  state : Option String
  server : Option (ServerInformation Url)

section
variable {Url : Type}

def Store.empty : Store Url := ⟨none,none,none,none,none⟩

def Store.after (store : Store Url) : Event Url → Store Url
  | .SavedClient client => { store with client := some client }
  | .SavedTokens tokens => { store with tokens := some tokens }
  | .SavedState state => { store with state := some state }
  | .SavedServer server => { store with server := some server }
  | .SavedVerifier code_verifier => { store with code_verifier := some code_verifier }
  | .Invalidated .All => .empty
  | .Invalidated .Client => { store with client := none }
  | .Invalidated .Tokens => { store with tokens := none }
  | .Invalidated .Verifier => { store with code_verifier := none }
  | .Started | .Sent _ | .Redirected _ => store

def stored (events : List (Event Url)) : Store Url := events.foldl Store.after .empty

theorem stored_append (events : List (Event Url)) (event : Event Url) :
    stored (events ++ [event]) = (stored events).after event := by
  simp [stored]

end

/-- The transport and the hooks of the application answer by all that happened before. The parsers are functions. -/
structure Environment (Url : Type) where
  lookup : List (Event Url) → Lookup
  url_error : UrlValidationError → String
  execute : List (Event Url) → HttpRequest Url → Except McpError OAuthResponse
  verifier : List (Event Url) → String
  challenge : String → String
  redirect_url : List (Event Url) → Option Url
  client_metadata : List (Event Url) → OAuthClientMetadata Url
  state : List (Event Url) → Except McpError (Option String)
  validate_resource_url : List (Event Url) → Url → Option Url → Except McpError (Option Url)
  validate_authorization_server_url : List (Event Url) → Url → Url → Except McpError Unit
  redirect_to_authorization : List (Event Url) → Url → Except McpError Unit
  from_str : String → Option JsonValue
  resource_metadata : JsonValue → Except String (ProtectedResourceMetadata Url)
  server_metadata : JsonValue → Except String (AuthorizationServerMetadata Url)
  tokens : JsonValue → Except String (OAuthTokens Url)
  client_information : JsonValue → Except String (OAuthClientInformation Url)

abbrev Flow (Url α : Type) : Type := Logged (Event Url) McpError α

end Ferrin.Mcp.OAuth
