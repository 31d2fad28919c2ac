import Mathlib.Data.List.DropRight

/-!
The policy for URLs that are fetched: which schemes, hosts and addresses may be
contacted, and which addresses a request is pinned to. What the `url` crate
computes of a URL is the class `UrlParts`; the answer of the resolver is an
argument of the validation.
-/
namespace Ferrin.SecureUrl

abbrev Ipv4Addr := BitVec 32
abbrev Ipv6Addr := BitVec 128

inductive IpAddr where
  | V4 (ip : Ipv4Addr)
  | V6 (ip : Ipv6Addr)

structure SocketAddr where
  ip : IpAddr
  port : UInt16

/-! ### Private networks -/

/-- A network: the leading bits that its addresses share. -/
structure Net (width : Nat) where
  address : BitVec width
  bits : Nat

def Net.contains {width : Nat} (net : Net width) (ip : BitVec width) : Bool :=
  net.address >>> (width - net.bits) = ip >>> (width - net.bits)

def v4 (a b c d : BitVec 8) : Ipv4Addr := a ++ b ++ c ++ d

/-- An IPv6 address from its eight groups. -/
def v6 (a b c d e f g h : BitVec 16) : Ipv6Addr := a ++ b ++ c ++ d ++ e ++ f ++ g ++ h

def segments (ip : Ipv6Addr) (i : Fin 8) : BitVec 16 := ip.extractLsb' (112 - 16 * i.val) 16

def IPV4_BLOCKED : List (Net 32) :=
  [⟨v4 0 0 0 0,8⟩,⟨v4 10 0 0 0,8⟩,⟨v4 100 64 0 0,10⟩,⟨v4 127 0 0 0,8⟩,⟨v4 169 254 0 0,16⟩,⟨v4 172 16 0 0,12⟩,
    ⟨v4 192 0 0 0,24⟩,⟨v4 192 0 2 0,24⟩,⟨v4 192 168 0 0,16⟩,⟨v4 198 18 0 0,15⟩,⟨v4 198 51 100 0,24⟩,
    ⟨v4 203 0 113 0,24⟩,⟨v4 224 0 0 0,4⟩,⟨v4 240 0 0 0,4⟩]

def IPV6_BLOCKED : List (Net 128) :=
  [⟨v6 0 0 0 0 0 0 0 0,128⟩,⟨v6 0 0 0 0 0 0 0 1,128⟩,⟨v6 0xfc00 0 0 0 0 0 0 0,7⟩,
    ⟨v6 0xfe80 0 0 0 0 0 0 0,10⟩,⟨v6 0xfec0 0 0 0 0 0 0 0,10⟩,⟨v6 0xff00 0 0 0 0 0 0 0,8⟩,
    ⟨v6 0x2001 0xdb8 0 0 0 0 0 0,32⟩,⟨v6 0x3fff 0 0 0 0 0 0 0,20⟩]

def is_private_v4 (ip : Ipv4Addr) : Bool := IPV4_BLOCKED.any (·.contains ip)

def embedded_v4 (ip : Ipv6Addr) : Option Ipv4Addr :=
  let s := segments ip
  if s 0 = 0 ∧ s 1 = 0 ∧ s 2 = 0 ∧ s 3 = 0 ∧ s 4 = 0 ∧ s 5 = 0xffff then some (s 6 ++ s 7)
  else if s 0 = 0 ∧ s 1 = 0 ∧ s 2 = 0 ∧ s 3 = 0 ∧ s 4 = 0 ∧ s 5 = 0 ∧ (s 6 ≠ 0 ∨ 1 < (s 7).toNat) then
    some (s 6 ++ s 7)
  else if (s 0 = 0x64 ∧ s 1 = 0xff9b ∧ s 2 = 0 ∧ s 3 = 0 ∧ s 4 = 0 ∧ s 5 = 0) ∨
      (s 0 = 0x64 ∧ s 1 = 0xff9b ∧ s 2 = 1) then some (s 6 ++ s 7)
  else if s 0 = 0x2002 then some (s 1 ++ s 2)
  else none

def is_private_ip : IpAddr → Bool
  | .V4 ip => is_private_v4 ip
  | .V6 ip => IPV6_BLOCKED.any (·.contains ip) || (embedded_v4 ip).any is_private_v4

def digitsOf (base : Nat) (digit : Char → Option Nat) (text : List Char) : Option Nat :=
  text.foldlM (fun n c => (digit c).map (base * n + ·)) 0

def decimalDigit (c : Char) : Option Nat := if c.isDigit then some (c.toNat - '0'.toNat) else none

def hexDigit (c : Char) : Option Nat :=
  if c.isDigit then some (c.toNat - '0'.toNat)
  else if 'a' ≤ c ∧ c ≤ 'f' then some (c.toNat - 'a'.toNat + 10)
  else if 'A' ≤ c ∧ c ≤ 'F' then some (c.toNat - 'A'.toNat + 10)
  else none

def parseOctet (text : List Char) : Option (BitVec 8) := do
  let n ← digitsOf 10 decimalDigit text
  if text ≠ [] ∧ (text.head? = some '0' → text.length = 1) ∧ n < 256 then some (BitVec.ofNat 8 n) else none

def parseV4 (text : List Char) : Option Ipv4Addr :=
  match text.splitOn '.' with
  | [a,b,c,d] => do return v4 (← parseOctet a) (← parseOctet b) (← parseOctet c) (← parseOctet d)
  | _ => none

def parseGroup (text : List Char) : Option (BitVec 16) := do
  let n ← digitsOf 16 hexDigit text
  if text ≠ [] ∧ text.length ≤ 4 then some (BitVec.ofNat 16 n) else none

/-- Groups between single colons. The last piece may be an IPv4 address where `dotted` allows it. -/
def parseGroups (dotted : Bool) : List (List Char) → Option (List (BitVec 16))
  | [] => some []
  | [last] =>
    match parseGroup last, parseV4 last with
    | some group, _ => some [group]
    | none, some ip => if dotted then some [ip.extractLsb' 16 16,ip.extractLsb' 0 16] else none
    | none, none => none
  | group :: rest => do return (← parseGroup group) :: (← parseGroups dotted rest)

/-- The text before and after the first `::`. -/
def cutDoubleColon : List Char → Option (List Char × List Char)
  | ':' :: ':' :: after => some ([],after)
  | c :: rest => (cutDoubleColon rest).map fun (before,after) => (c :: before,after)
  | [] => none

def pieces (text : List Char) : List (List Char) := if text = [] then [] else text.splitOn ':'

def fromGroups : List (BitVec 16) → Option Ipv6Addr
  | [a,b,c,d,e,f,g,h] => some (v6 a b c d e f g h)
  | _ => none

def parseV6 (text : List Char) : Option Ipv6Addr :=
  match cutDoubleColon text with
  | none => do fromGroups (← parseGroups true (pieces text))
  | some (before,after) => do
    let head ← parseGroups false (pieces before)
    let tail ← parseGroups true (pieces after)
    if head.length + tail.length < 8 then
      fromGroups (head ++ List.replicate (8 - head.length - tail.length) 0 ++ tail)
    else none

def parseIp (text : List Char) : Option IpAddr :=
  match parseV4 text with
  | some ip => some (.V4 ip)
  | none => (parseV6 text).map .V6

/-- `str::trim_end_matches('.')`. -/
def trimDots (host : List Char) : List Char := host.rdropWhile (· = '.')

/-- The text inside brackets, or the text itself. -/
def unbracketed (host : List Char) : List Char :=
  if host.head? = some '[' ∧ host.tail.getLast? = some ']' then host.tail.dropLast else host

def is_private_hostname (host : String) : Bool :=
  let host := unbracketed ((trimDots host.toList).map Char.toLower)
  if host = "localhost".toList ∨ ".localhost".toList <:+ host ∨ ".local".toList <:+ host then true
  else (parseIp host).any is_private_ip

inductive Scheme where
  | Https
  | Http

def Scheme.matches (s : Scheme) (scheme : String) : Bool :=
  let lower := scheme.toList.map Char.toLower
  match s with
  | .Https => lower = "https".toList
  | .Http => lower = "http".toList

inductive Host where
  | Domain (domain : String)
  | Ipv4 (ip : Ipv4Addr)
  | Ipv6 (ip : Ipv6Addr)

structure Origin where
  scheme : String
  host : String
  port : UInt16
  deriving DecidableEq

/-- What the `url` crate computes of a URL. An opaque origin is `none`: it
    equals no origin, not even itself. -/
class UrlParts (Url : Type) where
  scheme : Url → String
  username : Url → String
  password : Url → Option String
  host : Url → Option Host
  host_str : Url → Option String
  port_or_known_default : Url → Option UInt16
  origin : Url → Option Origin
  join : Url → String → Option Url

def sameOrigin : Option Origin → Option Origin → Bool
  | some a, some b => a = b
  | _, _ => false

structure UrlPolicy where
  allowed_schemes : List Scheme
  allow_private_networks : Bool
  trusted_origins : List (Option Origin)
  credentialed_origins : List (Option Origin)
  max_redirects : UInt8
  max_body_bytes : Nat

def UrlPolicy.default : UrlPolicy where
  allowed_schemes := [.Https]
  allow_private_networks := false
  trusted_origins := []
  credentialed_origins := []
  max_redirects := 5
  max_body_bytes := 100 * 1024 * 1024

inductive UrlValidationError where
  | SchemeNotAllowed (scheme : String)
  | EmbeddedCredentials
  | MissingHost
  | PrivateHost (host : String)
  | Resolution (host : String) (message : String)
  | PrivateAddress (host : String) (address : IpAddr)

section
variable {Url : Type} [UrlParts Url]
open UrlParts

def UrlPolicy.is_trusted (policy : UrlPolicy) (url : Url) : Bool := policy.trusted_origins.any (sameOrigin (origin url))

def UrlPolicy.is_credentialed (policy : UrlPolicy) (url : Url) : Bool :=
  policy.credentialed_origins.any (sameOrigin (origin url))

/-- `headers.rs`. -/
def is_same_origin (a b : Url) : Bool := sameOrigin (origin a) (origin b)

structure ValidatedUrl (Url : Type) where
  url : Url
  addresses : List SocketAddr

/-- The resolver's answer, asked at most once. -/
abbrev Lookup := Except String (List SocketAddr)

def addressesOf (policy : UrlPolicy) (lookup : Lookup) (host_string : String) (port : UInt16) :
    Host → Except UrlValidationError (List SocketAddr)
  | .Ipv4 ip => .ok [⟨.V4 ip,port⟩]
  | .Ipv6 ip => .ok [⟨.V6 ip,port⟩]
  | .Domain domain =>
    if ¬ policy.allow_private_networks ∧ is_private_hostname domain then .error (.PrivateHost host_string)
    else match lookup with
      | .error message => .error (.Resolution host_string message)
      | .ok [] => .error (.Resolution host_string "no addresses")
      | .ok addresses => .ok addresses

def blockedAddress (policy : UrlPolicy) (addresses : List SocketAddr) : Option SocketAddr :=
  if policy.allow_private_networks then none else addresses.find? fun address => is_private_ip address.ip

def portOf (url : Url) : UInt16 := (port_or_known_default url).getD (if scheme url = "http" then 80 else 443)

def validate_url (lookup : Lookup) (url : Url) (policy : UrlPolicy) : Except UrlValidationError (ValidatedUrl Url) :=
  if ¬ policy.allowed_schemes.any (·.matches (scheme url)) then .error (.SchemeNotAllowed (scheme url))
  else if username url ≠ "" ∨ (password url).isSome then .error .EmbeddedCredentials
  else match host url with
    | none => .error .MissingHost
    | some host =>
      let host_string := (host_str url).getD ""
      if policy.is_trusted url then .ok ⟨url,[]⟩
      else match addressesOf policy lookup host_string (portOf url) host with
        | .error e => .error e
        | .ok addresses =>
          match blockedAddress policy addresses with
          | some blocked => .error (.PrivateAddress host_string blocked.ip)
          | none => .ok ⟨url,addresses⟩

variable {lookup : Lookup} {url : Url} {policy : UrlPolicy} {validated : ValidatedUrl Url}

theorem validate_url_cases (passed : validate_url lookup url policy = .ok validated) :
    policy.allowed_schemes.any (·.matches (scheme url)) ∧ username url = "" ∧ password url = none ∧
      ∃ h, host url = some h ∧
        ((policy.is_trusted url ∧ validated = ⟨url,[]⟩) ∨
          ∃ addresses, addressesOf policy lookup ((host_str url).getD "") (portOf url) h = .ok addresses ∧
            blockedAddress policy addresses = none ∧ validated = ⟨url,addresses⟩) := by
  by_cases allowed : policy.allowed_schemes.any (·.matches (scheme url))
  case neg => rw [validate_url,if_pos allowed] at passed; cases passed
  by_cases bare : username url ≠ "" ∨ (password url).isSome
  case pos => rw [validate_url,if_neg (not_not_intro allowed),if_pos bare] at passed; cases passed
  rw [validate_url,if_neg (not_not_intro allowed),if_neg bare] at passed
  rw [not_or] at bare
  refine ⟨allowed,by simpa using bare.1,by simpa using bare.2,?_⟩
  cases found : host url with
  | none => simp [found] at passed
  | some h =>
    simp only [found] at passed
    refine ⟨h,rfl,?_⟩
    by_cases trusted : policy.is_trusted url
    · rw [if_pos trusted] at passed
      cases passed
      exact .inl ⟨trusted,rfl⟩
    · rw [if_neg trusted] at passed
      cases resolved : addressesOf policy lookup ((host_str url).getD "") (portOf url) h with
      | error => simp [resolved] at passed
      | ok addresses =>
        simp only [resolved] at passed
        cases blocked : blockedAddress policy addresses with
        | some => simp [blocked] at passed
        | none =>
          simp only [blocked,Except.ok.injEq] at passed
          exact .inr ⟨addresses,rfl,blocked,passed.symm⟩

theorem validate_url_url (passed : validate_url lookup url policy = .ok validated) : validated.url = url := by
  obtain ⟨-,-,-,h,-,⟨-,same⟩ | ⟨_,-,-,same⟩⟩ := validate_url_cases passed <;> rw [same]

end
end Ferrin.SecureUrl
