import Mathlib.Algebra.Order.Ring.Nat
import Ferrin.Headers
import Ferrin.SecureUrl.Policy

/-!
Downloads with validated redirects. The network is a list of answers, one for
every round of the loop: what the resolver said and what the server replied. A
run retains every request in order, and every value of the redirect counter. It
stays inside the perimeter of the policy exactly when the counter, eight bits
wide, does not overflow (`perimeter_iff`).
-/
namespace Ferrin.SecureUrl
open UrlParts List

inductive TransportErrorKind where
  | Connect
  | Timeout
  | Reset
  | Io
  | Tls
  | InvalidUrl
  | InvalidRequest
  | Body
  | BodyTooLarge
  | Cancelled
  | Other
  deriving DecidableEq

structure TransportError where
  kind : TransportErrorKind
  message : String

/-- A GET request without a body. -/
structure HttpRequest (Url : Type) where
  url : Url
  headers : Headers
  pinned_addresses : List SocketAddr

structure HttpResponse where
  status : Nat
  headers : Headers
  body : List (Except TransportError (List UInt8))

def HttpResponse.is_redirection (r : HttpResponse) : Bool := 300 ≤ r.status ∧ r.status < 400
def HttpResponse.is_success (r : HttpResponse) : Bool := 200 ≤ r.status ∧ r.status < 300

structure Downloaded (Url : Type) where
  url : Url
  data : List UInt8
  media_type : Option (List UInt8)
  headers : Headers

inductive DownloadErrorKind where
  | Validation (source : UrlValidationError)
  | Transport (source : TransportError)
  | Status (status : Nat) (headers : Headers)
  | InvalidRedirect
  | TooManyRedirects (limit : UInt8)
  | Cancelled

structure DownloadError (Url : Type) where
  url : Url
  kind : DownloadErrorKind

def transport_error {Url : Type} (url : Url) (source : TransportError) : DownloadError Url :=
  if source.kind = .Cancelled then ⟨url,.Cancelled⟩ else ⟨url,.Transport source⟩

/-! ### Reading a body -/

def isSpace (b : UInt8) : Bool := b = 32 || b = 9

def trim (value : List UInt8) : List UInt8 := (value.dropWhile isSpace).rdropWhile isSpace

/-- `str::parse::<u64>`. -/
def parse_u64 (value : List UInt8) : Option Nat :=
  let digits := if value.head? = some 0x2B then value.tail else value
  if digits ≠ [] ∧ digits.all fun b => 0x30 ≤ b ∧ b ≤ 0x39 then
    let n := digits.foldl (fun n b => 10 * n + (b.toNat - 0x30)) 0
    if n < 2 ^ 64 then some n else none
  else none

def too_large (max_bytes : Nat) : Option Nat → TransportError
  | some length => ⟨.BodyTooLarge,s!"response body of {length} bytes exceeds the limit of {max_bytes} bytes"⟩
  | none => ⟨.BodyTooLarge,s!"response body exceeds the limit of {max_bytes} bytes"⟩

def read_chunks (max_bytes : Nat) (buffer : List UInt8) :
    List (Except TransportError (List UInt8)) → Except TransportError (List UInt8)
  | [] => .ok buffer
  | .error e :: _ => .error e
  | .ok chunk :: rest =>
    if buffer.length + chunk.length > max_bytes then .error (too_large max_bytes none)
    else read_chunks max_bytes (buffer ++ chunk) rest

def read_body (r : HttpResponse) (max_bytes : Nat) : Except TransportError (List UInt8) :=
  match (r.headers.get_str "content-length").bind (parse_u64 ∘ trim) with
  | some length =>
    if length > max_bytes then .error (too_large max_bytes (some length)) else read_chunks max_bytes [] r.body
  | none => read_chunks max_bytes [] r.body

/-- `Content-Type` without parameters. -/
def mediaType (r : HttpResponse) : Option (List UInt8) :=
  ((r.headers.get_str "content-type").map fun value => trim (value.takeWhile (· ≠ 0x3B))).filter (· ≠ [])

section
variable {Url : Type} [UrlParts Url]

def VERSION : List UInt8 := "0.2.0".toList.map (·.toNat.toUInt8)

def prepare (headers : Headers) (url : Url) (policy : UrlPolicy) : Headers :=
  let headers := sanitize_download_headers headers
  let headers :=
    if headers.contains "user-agent" then headers
    else headers.with "user-agent" ("ferrin/".toList.map (·.toNat.toUInt8) ++ VERSION)
  if policy.is_credentialed url then headers else headers.remove "authorization"

/-- What changes from round to round. -/
structure Hop (Url : Type) where
  current : Url
  headers : Headers
  redirects : UInt8

inductive Ending (Url : Type) where
  | Returned (result : Except (DownloadError Url) (Downloaded Url))
  | Panicked

/-- One round of the environment. -/
structure Answer where
  lookup : Lookup
  reply : Except TransportError HttpResponse

inductive Received (Url : Type) where
  | Redirect (location : Url)
  | Final (result : Except (DownloadError Url) (Downloaded Url))

def locationOf (current : Url) (r : HttpResponse) : Option Url :=
  (r.headers.get_str "location").bind fun location =>
    join current (String.ofList (location.map fun b => Char.ofNat b.toNat))

def receive (policy : UrlPolicy) (current : Url) : Except TransportError HttpResponse → Received Url
  | .error source => .Final (.error (transport_error current source))
  | .ok r =>
    if r.is_redirection then
      match locationOf current r with
      | none => .Final (.error ⟨current,.InvalidRedirect⟩)
      | some location => .Redirect location
    else if ¬ r.is_success then .Final (.error ⟨current,.Status r.status r.headers⟩)
    else match read_body r policy.max_body_bytes with
      | .error source => .Final (.error (transport_error current source))
      | .ok data => .Final (.ok ⟨current,data,mediaType r,r.headers⟩)

/-- `redirects += 1`. A build with overflow checks panics at 255, one without wraps around. -/
def add_one (overflow_checks : Bool) (redirects : UInt8) : Option UInt8 :=
  if redirects = 255 ∧ overflow_checks then none else some (redirects + 1)

def Hop.moved (hop : Hop Url) (location : Url) (redirects : UInt8) : Hop Url where
  current := location
  headers := if is_same_origin hop.current location then hop.headers else strip_to_public_headers hop.headers
  redirects := redirects

/-- Everything a download has done. Without an ending it waits for the next answer. -/
structure Run (Url : Type) where
  requests : List (HttpRequest Url)
  counters : List UInt8
  ending : Option (Ending Url)

def download (overflow_checks : Bool) (policy : UrlPolicy) (initial : Url) : Hop Url → List Answer → Run Url
  | _, [] => ⟨[],[],none⟩
  | hop, answer :: rest =>
    match validate_url answer.lookup hop.current policy with
    | .error source => ⟨[],[],some (.Returned (.error ⟨hop.current,.Validation source⟩))⟩
    | .ok validated =>
      let request := ⟨validated.url,hop.headers,validated.addresses⟩
      match receive policy hop.current answer.reply with
      | .Final result => ⟨[request],[],some (.Returned result)⟩
      | .Redirect location =>
        match add_one overflow_checks hop.redirects with
        | none => ⟨[request],[],some .Panicked⟩
        | some redirects =>
          if redirects > policy.max_redirects then
            ⟨[request],[redirects],some (.Returned (.error ⟨initial,.TooManyRedirects policy.max_redirects⟩))⟩
          else
            let later := download overflow_checks policy initial (hop.moved location redirects) rest
            ⟨request :: later.requests,redirects :: later.counters,later.ending⟩

def start (headers : Headers) (url : Url) (policy : UrlPolicy) : Hop Url := ⟨url,prepare headers url policy,0⟩

def fetch_with_headers (overflow_checks : Bool) (url : Url) (headers : Headers) (policy : UrlPolicy)
    (answers : List Answer) : Run Url :=
  download overflow_checks policy url (start headers url policy) answers

def redirectsFollowed (policy : UrlPolicy) : Url → List Answer → Nat
  | _, [] => 0
  | current, answer :: rest =>
    match validate_url answer.lookup current policy, receive policy current answer.reply with
    | .ok _, .Redirect location => redirectsFollowed policy location rest + 1
    | _, _ => 0

variable {overflow_checks : Bool} {policy : UrlPolicy} {initial : Url}

inductive Rounds (overflow_checks : Bool) (policy : UrlPolicy) (initial : Url) :
    Hop Url → List Answer → Run Url → Prop where
  | waiting (hop : Hop Url) : Rounds overflow_checks policy initial hop [] ⟨[],[],none⟩
  | refused {hop : Hop Url} {answer : Answer} {source : UrlValidationError} (rest : List Answer)
      (refused : validate_url answer.lookup hop.current policy = .error source) :
      Rounds overflow_checks policy initial hop (answer :: rest)
        ⟨[],[],some (.Returned (.error ⟨hop.current,.Validation source⟩))⟩
  | final {hop : Hop Url} {answer : Answer} {addresses : List SocketAddr}
      {result : Except (DownloadError Url) (Downloaded Url)} (rest : List Answer)
      (checked : validate_url answer.lookup hop.current policy = .ok ⟨hop.current,addresses⟩)
      (received : receive policy hop.current answer.reply = .Final result) :
      Rounds overflow_checks policy initial hop (answer :: rest)
        ⟨[⟨hop.current,hop.headers,addresses⟩],[],some (.Returned result)⟩
  | panicked {hop : Hop Url} {answer : Answer} {addresses : List SocketAddr} {location : Url} (rest : List Answer)
      (checked : validate_url answer.lookup hop.current policy = .ok ⟨hop.current,addresses⟩)
      (received : receive policy hop.current answer.reply = .Redirect location)
      (counted : add_one overflow_checks hop.redirects = none) :
      Rounds overflow_checks policy initial hop (answer :: rest)
        ⟨[⟨hop.current,hop.headers,addresses⟩],[],some .Panicked⟩
  | tooMany {hop : Hop Url} {answer : Answer} {addresses : List SocketAddr} {location : Url} {redirects : UInt8}
      (rest : List Answer)
      (checked : validate_url answer.lookup hop.current policy = .ok ⟨hop.current,addresses⟩)
      (received : receive policy hop.current answer.reply = .Redirect location)
      (counted : add_one overflow_checks hop.redirects = some redirects) (above : redirects > policy.max_redirects) :
      Rounds overflow_checks policy initial hop (answer :: rest)
        ⟨[⟨hop.current,hop.headers,addresses⟩],[redirects],
          some (.Returned (.error ⟨initial,.TooManyRedirects policy.max_redirects⟩))⟩
  | again {hop : Hop Url} {answer : Answer} {addresses : List SocketAddr} {location : Url} {redirects : UInt8}
      {rest : List Answer} {later : Run Url}
      (checked : validate_url answer.lookup hop.current policy = .ok ⟨hop.current,addresses⟩)
      (received : receive policy hop.current answer.reply = .Redirect location)
      (counted : add_one overflow_checks hop.redirects = some redirects) (within : ¬ redirects > policy.max_redirects)
      (rounds : Rounds overflow_checks policy initial (hop.moved location redirects) rest later) :
      Rounds overflow_checks policy initial hop (answer :: rest)
        ⟨⟨hop.current,hop.headers,addresses⟩ :: later.requests,redirects :: later.counters,later.ending⟩

theorem download_rounds (answers : List Answer) : ∀ hop : Hop Url,
    Rounds overflow_checks policy initial hop answers (download overflow_checks policy initial hop answers) := by
  induction answers with
  | nil => exact .waiting
  | cons answer rest ih =>
    intro hop
    rw [download]
    cases passed : validate_url answer.lookup hop.current policy with
    | error => exact .refused rest passed
    | ok validated =>
      obtain ⟨url,_⟩ := validated
      obtain rfl : url = hop.current := validate_url_url passed
      cases received : receive policy hop.current answer.reply with
      | Final => exact .final rest passed received
      | Redirect =>
        cases counted : add_one overflow_checks hop.redirects with
        | none => simpa only [received,counted] using .panicked rest passed received counted
        | some redirects =>
          by_cases above : redirects > policy.max_redirects
          · simpa only [received,counted,if_pos above] using .tooMany rest passed received counted above
          · simpa only [received,counted,if_neg above] using .again passed received counted above (ih _)

def Checked (policy : UrlPolicy) (answers : List Answer) (requests : List (HttpRequest Url)) : Prop :=
  ∀ (i : Nat) (request : HttpRequest Url), requests[i]? = some request → ∃ answer : Answer, answers[i]? = some answer ∧
    validate_url answer.lookup request.url policy = .ok ⟨request.url,request.pinned_addresses⟩

/-- Other than public headers reach `home` and its origin only, before any cross-origin hop. -/
def Confined (home : Url) (requests : List (HttpRequest Url)) : Prop :=
  ∀ (i : Nat) (request : HttpRequest Url), requests[i]? = some request → ¬ PublicOnly request.headers →
    (request.url = home ∨ is_same_origin home request.url) ∧
      ∀ j < i, ∀ a b : HttpRequest Url, requests[j]? = some a → requests[j + 1]? = some b → is_same_origin a.url b.url

/-- The counter holds the number of redirects. -/
def Counted (before : Nat) (run : Run Url) : Prop :=
  run.ending ≠ some .Panicked ∧ ∀ (i : Nat) (c : UInt8), run.counters[i]? = some c → c.toNat = before + i + 1

structure Perimeter (policy : UrlPolicy) (initial : Url) (answers : List Answer) (run : Run Url) : Prop where
  checked : Checked policy answers run.requests
  confined : Confined initial run.requests
  /-- Blocked headers are never sent, and `Authorization` needs a credentialed origin. -/
  sanitized : ∀ request ∈ run.requests, Without BLOCKED_DOWNLOAD_HEADERS request.headers
  authorized : policy.is_credentialed initial = false →
    ∀ request ∈ run.requests, Without ["authorization"] request.headers
  counted : Counted 0 run
  bounded : run.requests.length ≤ policy.max_redirects.toNat + 1

theorem Checked.nil (answers : List Answer) : Checked policy answers ([] : List (HttpRequest Url)) := by
  intro i request found
  cases found

variable {request : HttpRequest Url} {answer : Answer} {answers : List Answer} {requests : List (HttpRequest Url)}
  {hop : Hop Url} {run : Run Url} {headers : Headers} {names : List String} {url : Url} {redirects : UInt8}
  {validated : ValidatedUrl Url} {before : Nat}

theorem Checked.cons
    (first : validate_url answer.lookup request.url policy = .ok ⟨request.url,request.pinned_addresses⟩)
    (later : Checked policy answers requests) : Checked policy (answer :: answers) (request :: requests) := by
  intro i found_request found
  cases i with
  | zero =>
    cases found
    exact ⟨answer,rfl,first⟩
  | succ i => exact later i found_request found

theorem Rounds.checked
    (rounds : Rounds overflow_checks policy initial hop answers run) : Checked policy answers run.requests := by
  induction rounds with
  | waiting => exact .nil _
  | refused => exact .nil _
  | final rest checked => exact .cons checked (.nil rest)
  | panicked rest checked => exact .cons checked (.nil rest)
  | tooMany rest checked => exact .cons checked (.nil rest)
  | again checked _ _ _ _ ih => exact .cons checked ih

theorem Rounds.head (rounds : Rounds overflow_checks policy initial hop answers run)
    (first : run.requests[0]? = some request) : request.url = hop.current := by
  cases rounds <;> cases first <;> rfl

theorem Confined.of_public {home : Url}
    (isPublic : ∀ request ∈ requests, PublicOnly request.headers) : Confined home requests := by
  intro i request found private_
  exact absurd (isPublic request (mem_of_getElem? found)) private_

theorem sameOrigin_trans {a b c : Option Origin} (left : sameOrigin a b) (right : sameOrigin b c) : sameOrigin a c := by
  cases a <;> cases b <;> cases c <;> simp_all [sameOrigin]

theorem Confined.cons {next : Url}
    (same : is_same_origin request.url next) (head : ∀ r : HttpRequest Url, requests[0]? = some r → r.url = next)
    (later : Confined next requests) : Confined request.url (request :: requests) := by
  intro i found_request found private_
  cases i with
  | zero =>
    cases found
    exact ⟨.inl rfl,fun j below => absurd below (Nat.not_lt_zero j)⟩
  | succ i =>
    obtain ⟨origin,hops⟩ := later i found_request found private_
    refine ⟨.inr ?_,?_⟩
    · rcases origin with here | there
      · exact here ▸ same
      · exact sameOrigin_trans same there
    · intro j below a b foundA foundB
      cases j with
      | zero =>
        cases foundA
        rw [head b foundB]
        exact same
      | succ j => exact hops j (Nat.lt_of_succ_lt_succ below) a b foundA foundB

theorem Rounds.public
    (rounds : Rounds overflow_checks policy initial hop answers run) (isPublic : PublicOnly hop.headers) :
    ∀ request ∈ run.requests, PublicOnly request.headers := by
  induction rounds with
  | waiting => simp
  | refused => simp
  | final => simpa using isPublic
  | panicked => simpa using isPublic
  | tooMany => simpa using isPublic
  | @again hop _ _ location redirects _ _ _ _ _ _ _ ih =>
    have moved : PublicOnly (hop.moved location redirects).headers := by
      unfold Hop.moved
      split_ifs
      · exact isPublic
      · exact strip_publicOnly hop.headers
    intro request mem
    rcases List.mem_cons.mp mem with rfl | later
    · exact isPublic
    · exact ih moved request later

theorem Rounds.confined
    (rounds : Rounds overflow_checks policy initial hop answers run) : Confined hop.current run.requests := by
  have single : ∀ request : HttpRequest Url, Confined request.url [request] := by
    intro request i found_request found private_
    cases i with
    | zero =>
      cases found
      exact ⟨.inl rfl,fun j below => absurd below (Nat.not_lt_zero j)⟩
    | succ => cases found
  induction rounds with
  | waiting => exact .of_public (by simp)
  | refused => exact .of_public (by simp)
  | final => exact single _
  | panicked => exact single _
  | tooMany => exact single _
  | @again hop _ _ location redirects _ later _ _ _ _ rounds ih =>
    by_cases same : is_same_origin hop.current location
    · exact .cons same (fun _ first => rounds.head first) ih
    · have stripped : (hop.moved location redirects).headers = strip_to_public_headers hop.headers := if_neg same
      have isPublic := rounds.public (stripped ▸ strip_publicOnly hop.headers)
      intro i request found private_
      cases i with
      | zero => exact ⟨(single _ 0 request found private_).1,fun j below => absurd below (Nat.not_lt_zero j)⟩
      | succ => exact absurd (isPublic request (mem_of_getElem? found)) private_

theorem PublicOnly.without (isPublic : PublicOnly headers)
    (apart : ∀ name ∈ names, name ∉ publicNames) : Without names headers :=
  fun entry mem named => apart entry.1 named (isPublic entry mem)

theorem Rounds.without
    (rounds : Rounds overflow_checks policy initial hop answers run) (apart : ∀ name ∈ names, name ∉ publicNames)
    (clean : Without names hop.headers) : ∀ request ∈ run.requests, Without names request.headers := by
  induction rounds with
  | waiting => simp
  | refused => simp
  | final => simpa using clean
  | panicked => simpa using clean
  | tooMany => simpa using clean
  | @again hop _ _ location redirects _ _ _ _ _ _ _ ih =>
    have moved : Without names (hop.moved location redirects).headers := by
      unfold Hop.moved
      split_ifs
      · exact clean
      · exact PublicOnly.without (strip_publicOnly hop.headers) apart
    intro request mem
    rcases List.mem_cons.mp mem with rfl | later
    · exact clean
    · exact ih moved request later

theorem prepare_sanitized (headers : Headers) (url : Url) (policy : UrlPolicy) :
    Without BLOCKED_DOWNLOAD_HEADERS (prepare headers url policy) := by
  have agent : headerName "user-agent" = some "user-agent" := by decide
  have named : Without BLOCKED_DOWNLOAD_HEADERS
      (if (sanitize_download_headers headers).contains "user-agent" then sanitize_download_headers headers
       else (sanitize_download_headers headers).with "user-agent" ("ferrin/".toList.map (·.toNat.toUInt8) ++ VERSION)) := by
    split_ifs
    · exact sanitize_without headers
    · intro entry member
      rcases Headers.with_entries agent entry member with kept | new
      · exact sanitize_without headers entry kept
      · rw [new]
        decide
  unfold prepare
  intro entry member
  dsimp only at member
  by_cases credentialed : policy.is_credentialed url
  · rw [if_pos credentialed] at member
    exact named entry member
  · rw [if_neg credentialed] at member
    exact named entry (Headers.remove_subset _ _ member)

theorem prepare_authorized {policy : UrlPolicy}
    (uncredentialed : policy.is_credentialed url = false) : Without ["authorization"] (prepare headers url policy) := by
  unfold prepare
  rw [uncredentialed]
  exact Headers.remove_without (by decide)

/-! ### The counter -/

theorem add_one_ne_none (small : redirects.toNat < 255) : add_one overflow_checks redirects ≠ none := by
  have notFull : redirects ≠ 255 := fun full => absurd (full ▸ small) (by decide)
  simp [add_one,notFull]

theorem add_one_counts {next : UInt8} (small : redirects.toNat < 255)
    (added : add_one overflow_checks redirects = some next) : next.toNat = redirects.toNat + 1 := by
  unfold add_one at added
  split_ifs at added
  cases added
  rw [UInt8.toNat_add]
  exact Nat.mod_eq_of_lt (Nat.add_lt_add_right small 1)

theorem followed_redirect {current location : Url} (rest : List Answer)
    (checked : validate_url answer.lookup current policy = .ok validated)
    (received : receive policy current answer.reply = .Redirect location) :
    redirectsFollowed policy current (answer :: rest) = redirectsFollowed policy location rest + 1 := by
  simp only [redirectsFollowed,checked,received]

omit [UrlParts Url] in
theorem Counted.nil (calm : run.ending ≠ some .Panicked) (none : run.counters = []) : Counted before run := by
  refine ⟨calm,fun i c found => ?_⟩
  rw [none] at found
  cases found

omit [UrlParts Url] in
theorem Counted.cons {later : Run Url} (value : redirects.toNat = before + 1) :
    Counted before ⟨requests,redirects :: later.counters,later.ending⟩ ↔ Counted (before + 1) later := by
  constructor
  · rintro ⟨calm,values⟩
    refine ⟨calm,fun i c found => ?_⟩
    have shifted := values (i + 1) c found
    omega
  · rintro ⟨calm,values⟩
    refine ⟨calm,fun i c found => ?_⟩
    cases i with
    | zero => cases found; exact value
    | succ i =>
      have shifted := values i c found
      omega

theorem Rounds.within (rounds : Rounds overflow_checks policy initial hop answers run)
    (started : hop.redirects.toNat ≤ policy.max_redirects.toNat)
    (room : policy.max_redirects.toNat < 255 ∨ hop.redirects.toNat + redirectsFollowed policy hop.current answers < 256) :
    Counted hop.redirects.toNat run ∧ hop.redirects.toNat + run.requests.length ≤ policy.max_redirects.toNat + 1 := by
  induction rounds with
  | waiting => exact ⟨.nil (by simp) rfl,Nat.le_succ_of_le started⟩
  | refused => exact ⟨.nil (by simp) rfl,Nat.le_succ_of_le started⟩
  | final => exact ⟨.nil (by simp) rfl,Nat.succ_le_succ started⟩
  | @panicked hop _ _ _ rest checked received counted =>
    rw [followed_redirect rest checked received] at room
    have small : hop.redirects.toNat < 255 := by omega
    exact absurd counted (add_one_ne_none small)
  | @tooMany hop _ _ _ _ rest checked received counted above =>
    rw [followed_redirect rest checked received] at room
    have small : hop.redirects.toNat < 255 := by omega
    refine ⟨⟨by simp,fun i c found => ?_⟩,Nat.succ_le_succ started⟩
    cases i with
    | zero => cases found; exact add_one_counts small counted
    | succ => cases found
  | @again hop _ _ location redirects _ _ checked received counted within rounds ih =>
    rw [followed_redirect _ checked received] at room
    have small : hop.redirects.toNat < 255 := by omega
    have value := add_one_counts small counted
    have limited : redirects.toNat ≤ policy.max_redirects.toNat := UInt8.le_iff_toNat_le.mp (UInt8.not_lt.mp within)
    have moved : (hop.moved location redirects).redirects = redirects := rfl
    have onward : (hop.moved location redirects).current = location := rfl
    rw [moved,onward] at ih
    obtain ⟨later,_⟩ := ih limited (by omega)
    refine ⟨(Counted.cons value).mpr (value ▸ later),?_⟩
    rw [length_cons]
    omega

theorem Rounds.overflow
    (rounds : Rounds overflow_checks policy initial hop answers run) (unlimited : 255 ≤ policy.max_redirects.toNat)
    (many : 256 ≤ hop.redirects.toNat + redirectsFollowed policy hop.current answers) :
    ¬ Counted hop.redirects.toNat run := by
  induction rounds with
  | waiting hop =>
    have byte := hop.redirects.toNat_lt
    simp only [redirectsFollowed] at many
    omega
  | @refused hop _ _ rest refused =>
    have byte := hop.redirects.toNat_lt
    simp only [redirectsFollowed,refused] at many
    omega
  | @final hop _ _ _ rest checked received =>
    have byte := hop.redirects.toNat_lt
    simp only [redirectsFollowed,checked,received] at many
    omega
  | panicked => exact fun counted => counted.1 rfl
  | @tooMany _ _ _ _ redirects _ _ _ _ above =>
    have byte := redirects.toNat_lt
    have spent := UInt8.lt_iff_toNat_lt.mp above
    omega
  | @again hop _ _ location redirects _ _ checked received counted within rounds ih =>
    rw [followed_redirect _ checked received] at many
    have moved : (hop.moved location redirects).redirects = redirects := rfl
    have onward : (hop.moved location redirects).current = location := rfl
    rw [moved,onward] at ih
    by_cases small : hop.redirects.toNat < 255
    · have value := add_one_counts small counted
      rw [Counted.cons value,← value]
      exact ih (by omega)
    · rintro ⟨-,values⟩
      have value := values 0 redirects rfl
      have byte := redirects.toNat_lt
      omega

/-- A download stays inside the perimeter of its policy exactly when the
    redirect limit is below 255 or fewer than 256 redirects are followed. -/
theorem perimeter_iff (overflow_checks : Bool) (url : Url) (headers : Headers) (policy : UrlPolicy)
    (answers : List Answer) :
    Perimeter policy url answers (fetch_with_headers overflow_checks url headers policy answers) ↔
      policy.max_redirects.toNat < 255 ∨ redirectsFollowed policy url answers < 256 := by
  have rounds : Rounds overflow_checks policy url (start headers url policy) answers
      (fetch_with_headers overflow_checks url headers policy answers) := download_rounds answers _
  have current : (start headers url policy).current = url := rfl
  have fresh : (start headers url policy).redirects.toNat = 0 := rfl
  constructor
  · intro perimeter
    by_contra outside
    rw [not_or,Nat.not_lt,Nat.not_lt] at outside
    have broken := rounds.overflow outside.1 (by rw [current,fresh,Nat.zero_add]; exact outside.2)
    exact broken (fresh ▸ perimeter.counted)
  · intro room
    obtain ⟨counted,size⟩ := rounds.within (by rw [fresh]; exact Nat.zero_le _)
      (by rw [current,fresh,Nat.zero_add]; exact room)
    rw [fresh] at counted size
    refine ⟨rounds.checked,rounds.confined,?_,?_,counted,by omega⟩
    · exact rounds.without (by decide) (prepare_sanitized headers url policy)
    · exact fun uncredentialed => rounds.without (by decide) (prepare_authorized uncredentialed)

theorem redirectsFollowed_replicate (checked : validate_url answer.lookup url policy = .ok validated)
    (received : receive policy url answer.reply = .Redirect url) (n : Nat) :
    redirectsFollowed policy url (List.replicate n answer) = n := by
  induction n with
  | zero => rfl
  | succ n ih => rw [replicate_succ,followed_redirect _ checked received,ih]

end

structure HostUrl where
  name : String

instance : UrlParts HostUrl where
  scheme _ := "https"
  username _ := ""
  password _ := none
  host url := some (.Domain url.name)
  host_str url := some url.name
  port_or_known_default _ := some 443
  origin url := some ⟨"https",url.name,443⟩
  join _ location := some ⟨location⟩

def home : HostUrl := ⟨"example.com"⟩

/-- A redirect from `example.com` to itself. -/
def selfRedirect : Answer where
  lookup := .ok [⟨.V4 (v4 8 8 8 8),443⟩]
  reply := .ok ⟨302,⟨[("location","example.com".toList.map (·.toNat.toUInt8))]⟩,[]⟩

def unlimited : UrlPolicy := { UrlPolicy.default with max_redirects := 255 }

def selfRedirects : List Answer := List.replicate 256 selfRedirect

/-- The counter overflows with and without overflow checks. -/
theorem overflow_of_256_redirects :
    ¬ Perimeter unlimited home selfRedirects (fetch_with_headers true home .new unlimited selfRedirects) ∧
      ¬ Perimeter unlimited home selfRedirects (fetch_with_headers false home .new unlimited selfRedirects) := by
  have checked : validate_url selfRedirect.lookup home unlimited = .ok ⟨home,[⟨.V4 (v4 8 8 8 8),443⟩]⟩ := by rfl
  have received : receive unlimited home selfRedirect.reply = .Redirect home := by rfl
  have many : 256 ≤ (start .new home unlimited).redirects.toNat +
      redirectsFollowed unlimited (start .new home unlimited).current selfRedirects := by
    rw [selfRedirects,start,redirectsFollowed_replicate checked received]
    exact Nat.le_add_left _ _
  have broken : ∀ overflow_checks,
      ¬ Counted 0 (fetch_with_headers overflow_checks home .new unlimited selfRedirects) := by
    intro overflow_checks counted
    have rounds : Rounds overflow_checks unlimited home (start .new home unlimited) selfRedirects
        (fetch_with_headers overflow_checks home .new unlimited selfRedirects) := download_rounds selfRedirects _
    exact rounds.overflow (Nat.le_refl 255) many counted
  exact ⟨fun perimeter => broken true perimeter.counted,fun perimeter => broken false perimeter.counted⟩

/-! ### What a download returns -/

section
variable {Url : Type} [UrlParts Url] {overflow_checks : Bool} {policy : UrlPolicy} {initial url : Url} {max_bytes : Nat}
  {response : HttpResponse} {data : List UInt8} {hop : Hop Url} {answers : List Answer} {run : Run Url} {file : Downloaded Url}

/-- The body came without a failure, and `data` is all of it. -/
def Whole (body : List (Except TransportError (List UInt8))) (data : List UInt8) : Prop :=
  ∃ parts : List (List UInt8), body = parts.map .ok ∧ data = parts.flatten

theorem read_chunks_whole {chunks : List (Except TransportError (List UInt8))} {buffer : List UInt8}
    (read : read_chunks max_bytes buffer chunks = .ok data) :
    ∃ later, Whole chunks later ∧ data = buffer ++ later ∧ (buffer.length ≤ max_bytes → data.length ≤ max_bytes) := by
  induction chunks generalizing buffer with
  | nil =>
    cases read
    exact ⟨[],⟨[],rfl,rfl⟩,by simp,id⟩
  | cons chunk rest ih =>
    cases chunk with
    | error e => cases read
    | ok chunk =>
      rw [read_chunks] at read
      split_ifs at read with large
      obtain ⟨_,⟨parts,rfl,rfl⟩,rfl,within⟩ := ih read
      exact ⟨_,⟨chunk :: parts,rfl,rfl⟩,by simp,fun _ => within (by rw [length_append]; omega)⟩

theorem read_body_whole (read : read_body response max_bytes = .ok data) :
    Whole response.body data ∧ data.length ≤ max_bytes := by
  have start : read_chunks max_bytes [] response.body = .ok data := by
    unfold read_body at read
    split at read
    · split_ifs at read
      exact read
    · exact read
  obtain ⟨later,whole,rfl,within⟩ := read_chunks_whole start
  exact ⟨whole,within (Nat.zero_le _)⟩

def Pinned (policy : UrlPolicy) (addresses : List SocketAddr) : Prop :=
  addresses ≠ [] ∧ (policy.allow_private_networks = false → ∀ address ∈ addresses, is_private_ip address.ip = false)

theorem validate_url_pinned {lookup : Lookup} {validated : ValidatedUrl Url}
    (passed : validate_url lookup url policy = .ok validated) (untrusted : policy.is_trusted url = false) :
    Pinned policy validated.addresses := by
  obtain ⟨-,-,-,h,-,⟨trusted,-⟩ | ⟨addresses,resolved,unblocked,rfl⟩⟩ := validate_url_cases passed
  · rw [untrusted] at trusted
    cases trusted
  · constructor
    · intro empty
      cases h with
      | Ipv4 => simp_all [addressesOf]
      | Ipv6 => simp_all [addressesOf]
      | Domain =>
        simp only [addressesOf] at resolved
        split_ifs at resolved
        split at resolved <;> simp_all
    · intro guarded address mem
      simp only [blockedAddress,guarded,Bool.false_eq_true,if_false,find?_eq_none] at unblocked
      simpa using unblocked address mem

/-- A file is the whole body of the success response to a checked request, within the limit of the policy. -/
structure Delivers (policy : UrlPolicy) (file : Downloaded Url) (request : HttpRequest Url) (answer : Answer) : Prop where
  place : request.url = file.url
  checked : validate_url answer.lookup request.url policy = .ok ⟨request.url,request.pinned_addresses⟩
  pinned : policy.is_trusted request.url = false → Pinned policy request.pinned_addresses
  whole : ∃ response, answer.reply = .ok response ∧ response.is_success = true ∧ file.headers = response.headers ∧
    file.media_type = mediaType response ∧ Whole response.body file.data
  small : file.data.length ≤ policy.max_body_bytes

theorem receive_file {current : Url} {reply : Except TransportError HttpResponse}
    (received : receive policy current reply = .Final (.ok file)) :
    file.url = current ∧ file.data.length ≤ policy.max_body_bytes ∧
      ∃ response, reply = .ok response ∧ response.is_success = true ∧ file.headers = response.headers ∧
        file.media_type = mediaType response ∧ Whole response.body file.data := by
  cases reply with
  | error source => cases received
  | ok response =>
    rw [receive] at received
    split_ifs at received with _ success
    · split at received <;> cases received
    · split at received
      · cases received
      · rename_i data read
        obtain rfl := Except.ok.inj (Received.Final.inj received)
        obtain ⟨whole,small⟩ := read_body_whole read
        exact ⟨rfl,small,response,rfl,success,rfl,rfl,whole⟩
    · cases received

def Followed (policy : UrlPolicy) (answers : List Answer) (requests : List (HttpRequest Url)) : Prop :=
  ∀ (i : Nat) (a b : HttpRequest Url), requests[i]? = some a → requests[i + 1]? = some b →
    ∃ answer : Answer, answers[i]? = some answer ∧ receive policy a.url answer.reply = .Redirect b.url

theorem Rounds.followed (rounds : Rounds overflow_checks policy initial hop answers run) :
    Followed policy answers run.requests := by
  induction rounds with
  | waiting => exact fun _ _ _ found => nomatch found
  | refused => exact fun _ _ _ found => nomatch found
  | final => exact fun _ _ _ _ next => nomatch next
  | panicked => exact fun _ _ _ _ next => nomatch next
  | tooMany => exact fun _ _ _ _ next => nomatch next
  | @again _ answer _ _ _ _ _ _ received _ _ rounds ih =>
    intro i a b found next
    cases i with
    | zero =>
      cases found
      exact ⟨answer,rfl,(rounds.head next).symm ▸ received⟩
    | succ i => exact ih i a b found next

theorem Rounds.delivers (rounds : Rounds overflow_checks policy initial hop answers run)
    (ended : run.ending = some (.Returned (.ok file))) : ∃ earlier request answer,
      run.requests = earlier ++ [request] ∧ answers[earlier.length]? = some answer ∧ Delivers policy file request answer := by
  induction rounds with
  | waiting => cases ended
  | refused => cases ended
  | panicked => cases ended
  | tooMany => cases ended
  | @final hop answer addresses result rest checked received =>
    obtain rfl := Ending.Returned.inj (Option.some.inj ended)
    obtain ⟨place,small,whole⟩ := receive_file received
    exact ⟨[],_,answer,rfl,rfl,place.symm,checked,validate_url_pinned checked,whole,small⟩
  | again _ _ _ _ _ ih =>
    obtain ⟨earlier,request,answer,last,found,delivers⟩ := ih ended
    exact ⟨_ :: earlier,request,answer,congrArg (_ :: ·) last,found,delivers⟩

/-- A download that returns a file has followed redirects from its URL to a request that delivers the file. -/
theorem download_delivers (overflow_checks : Bool) (url : Url) (headers : Headers) (policy : UrlPolicy)
    (answers : List Answer) (file : Downloaded Url)
    (ended : (fetch_with_headers overflow_checks url headers policy answers).ending = some (.Returned (.ok file))) :
    ∃ earlier request answer,
      (fetch_with_headers overflow_checks url headers policy answers).requests = earlier ++ [request] ∧
      (earlier ++ [request]).head?.map (·.url) = some url ∧ Followed policy answers (earlier ++ [request]) ∧
      answers[earlier.length]? = some answer ∧ Delivers policy file request answer := by
  have rounds : Rounds overflow_checks policy url (start headers url policy) answers _ := download_rounds answers _
  obtain ⟨earlier,request,answer,last,found,delivers⟩ := rounds.delivers ended
  refine ⟨earlier,request,answer,last,?_,last ▸ rounds.followed,found,delivers⟩
  cases first : (earlier ++ [request]).head? with
  | none => simp at first
  | some sent => exact congrArg some (rounds.head (by rw [last,← head?_eq_getElem?,first]))

end

def twoParts : Answer := { selfRedirect with reply := .ok ⟨200,⟨[]⟩,[.ok [104],.ok [105]]⟩ }

theorem download_delivers_parts : ∃ earlier request answer,
    (fetch_with_headers true home .new unlimited [selfRedirect,twoParts]).requests = earlier ++ [request] ∧
      (earlier ++ [request]).head?.map (·.url) = some home ∧ Followed unlimited [selfRedirect,twoParts] (earlier ++ [request]) ∧
      [selfRedirect,twoParts][earlier.length]? = some answer ∧
      Delivers unlimited ⟨home,[104,105],none,⟨[]⟩⟩ request answer :=
  download_delivers true home .new unlimited _ _ rfl

end Ferrin.SecureUrl
