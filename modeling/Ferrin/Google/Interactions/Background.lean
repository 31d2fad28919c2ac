import Ferrin.Json
import Mathlib.Data.List.Infix

/-!
The stream of a background interaction, which is read over several connections.
Each of them resumes behind the last event that was received.
-/
namespace Ferrin.Google.Background
open List

inductive ProviderError where
  | Cancelled
  | ApiCall (message : String) (is_retryable : Bool)
  | InvalidArgument (argument message : String)
  | InvalidResponseData (message : String)
  | Other (message : String)

inductive ParseResult where
  | Ok (value raw : JsonValue)
  | Err (error : ProviderError) (raw : Option String)

/-- What a connection is to the server: how often it was asked before, and the last id that is sent to it. It fails, or
its stream ends behind these results. -/
abbrev Transport := Nat → Option String → Except ProviderError (List ParseResult)

def url (cannot_be_a_base : Bool) (id : String) : Except ProviderError Unit :=
  if id ∈ ["",".",".."] then .error (.InvalidArgument "interaction_id" "interaction id must be a nonempty resource identifier")
  else if cannot_be_a_base then .error (.InvalidResponseData "invalid interactions endpoint")
  else .ok ()

structure Resume where
  current : Option (List ParseResult)
  last_event_id : Option String
  attempts : Nat
  terminal : Bool
  connections : Nat

namespace Resume

/-- What a pass through the loop of `next` comes to: it returns a result, or the loop goes on. -/
inductive Pass where
  | Return (result : Except ProviderError ParseResult)
  | Continue

def retry (s : Resume) (error : ProviderError) : Pass × Resume :=
  let s := { s with attempts := min (s.attempts + 1) 255 }
  if s.attempts ≥ 3 ∨ error matches .Cancelled then (.Return (.error error),s) else (.Continue,s)

def event_id (value : JsonValue) : Option String := ((value.get "event_id").bind (·.as_str)).filter (· ≠ "")

def is_terminal (value : JsonValue) : Bool :=
  ((value.get "event_type").bind (·.as_str)).any (· ∈ ["interaction.completed","interaction.complete","error"])

def receive (s : Resume) : List ParseResult → Pass × Resume
  | .Ok value raw :: rest =>
    let s := { s with current := some rest }
    let id := event_id value
    if id.isSome ∧ id = s.last_event_id then (.Continue,s)
    else
      let s := { s with last_event_id := id.or s.last_event_id }
      (.Return (.ok (.Ok value raw)),if is_terminal value then { s with terminal := true } else s)
  | .Err error raw :: rest =>
    let s := { s with current := some rest }
    match error with
    | .Cancelled => (.Return (.error error),s)
    | .ApiCall _ true =>
      if s.last_event_id.isSome then { s with current := none }.retry error
      else (.Return (.ok (.Err error raw)),{ s with terminal := true })
    | _ => (.Return (.ok (.Err error raw)),{ s with terminal := true })
  | [] =>
    let s := { s with current := none }
    if s.last_event_id.isNone then (.Return (.error (.InvalidResponseData "background stream ended without a resume event id")),s)
    else s.retry (.InvalidResponseData "background interactions retry limit exceeded")

/-- A pass through the loop of `next`. -/
def pass (endpoint : Except ProviderError Unit) (transport : Transport) (s : Resume) : Pass × Resume :=
  match s.current with
  | some stream => s.receive stream
  | none =>
    match endpoint with
    | .error error => (.Return (.error error),s)
    | .ok () =>
      let opened := { s with connections := s.connections + 1 }
      match transport s.connections s.last_event_id with
      | .ok stream => { opened with current := some stream }.receive stream
      | .error error => opened.retry error

end Resume

def unfold (endpoint : Except ProviderError Unit) (transport : Transport) : Nat → Resume → List ParseResult × Resume
  | 0,s => ([],s)
  | passes + 1,s =>
    if s.terminal then ([],s)
    else
      match s.pass endpoint transport with
      | (.Continue,s) => unfold endpoint transport passes s
      | (.Return (.ok result),s) =>
        let (results,s) := unfold endpoint transport passes s
        (result :: results,s)
      | (.Return (.error error),s) =>
        let (results,s) := unfold endpoint transport passes { s with terminal := true }
        (.Err error none :: results,s)

def stream (endpoint : Except ProviderError Unit) (transport : Transport) (passes : Nat) : List ParseResult × Resume :=
  unfold endpoint transport passes ⟨none,none,0,false,0⟩

/-! ### The server's log -/

structure Event where
  value : JsonValue
  raw : JsonValue

def Event.result (e : Event) : ParseResult := .Ok e.value e.raw
def Event.id (e : Event) : Option String := Resume.event_id e.value
def Event.ends (e : Event) : Bool := Resume.is_terminal e.value

def last_id (received : List Event) : Option String := received.getLast?.bind (·.id)

structure Log (log : List Event) : Prop where
  named : ∀ e ∈ log, e.id.isSome
  distinct : (log.map (·.id)).Nodup
  terminal : ∀ before e after, log = before ++ e :: after → e.ends = true → after = []

/-- A stream ends without a result or with a failure that is no cancellation. -/
def Ends (tail : List ParseResult) : Prop :=
  tail = [] ∨ ∃ error raw more, tail = .Err error raw :: more ∧ error ≠ .Cancelled

/-- What a connection brings behind the events that were received. It may bring the last one of them again. -/
inductive Serves (received rest : List Event) : Except ProviderError (List ParseResult) → List Event → Prop
  | failed {error : ProviderError} (other : error ≠ .Cancelled) : Serves received rest (.error error) []
  | read {brought again : List Event} {tail : List ParseResult} (first : brought <+: rest)
    (boundary : again = [] ∨ ∃ e, received.getLast? = some e ∧ again = [e]) (ends : Ends tail) :
    Serves received rest (.ok ((again ++ brought).map (·.result) ++ tail)) brought

structure Served (log : List Event) (transport : Transport) (received : Nat → List Event) : Prop where
  start : received 0 = []
  serves : ∀ i < 3, ∃ rest brought, log = received i ++ rest ∧ received (i + 1) = received i ++ brought ∧
    Serves (received i) rest (transport i (last_id (received i))) brought

/-- A failure that may be hidden: of the request, by the end of the stream or by an error that is worth a retry. -/
def Retryable : Except ProviderError (List ParseResult) → Prop
  | .error _ => True
  | .ok results => ∀ oks error raw more, results = oks ++ .Err error raw :: more → (∀ result ∈ oks, result matches .Ok ..) →
    ∃ message, error = .ApiCall message true

/-- Some connection brings the rest of the log, and those before it fail behind an event and in a way that is hidden. -/
def Completed (log : List Event) (transport : Transport) (received : Nat → List Event) (i : Nat) : Prop :=
  ∃ c < 3, i ≤ c ∧ received (c + 1) = log ∧ ∀ j, i ≤ j → j < c →
    received (j + 1) ≠ [] ∧ Retryable (transport j (last_id (received j)))

section
variable {endpoint : Except ProviderError Unit} {transport : Transport} {s s' s₁ : Resume} {out : List ParseResult}

def Yields (endpoint : Except ProviderError Unit) (transport : Transport) (s : Resume) (out : List ParseResult) (s' : Resume) : Prop :=
  ∃ enough, ∀ passes ≥ enough, unfold endpoint transport passes s = (out,s')

theorem Yields.stop (done : s.terminal = true) : Yields endpoint transport s [] s := by
  refine ⟨1,fun passes some_ => ?_⟩
  obtain ⟨n,rfl⟩ := Nat.exists_eq_add_of_le' some_
  rw [unfold,if_pos done]

theorem Yields.again (live : s.terminal = false) (passed : s.pass endpoint transport = (.Continue,s₁))
    (yields : Yields endpoint transport s₁ out s') : Yields endpoint transport s out s' := by
  obtain ⟨enough,yields⟩ := yields
  refine ⟨enough + 1,fun passes some_ => ?_⟩
  obtain ⟨n,rfl⟩ := Nat.exists_eq_add_of_le' (Nat.le_of_add_left_le some_)
  rw [unfold,live,passed]
  exact yields n (by omega)

theorem Yields.result (live : s.terminal = false) {result : ParseResult}
    (passed : s.pass endpoint transport = (.Return (.ok result),s₁)) (yields : Yields endpoint transport s₁ out s') :
    Yields endpoint transport s (result :: out) s' := by
  obtain ⟨enough,yields⟩ := yields
  refine ⟨enough + 1,fun passes some_ => ?_⟩
  obtain ⟨n,rfl⟩ := Nat.exists_eq_add_of_le' (Nat.le_of_add_left_le some_)
  rw [unfold,live,passed]
  simp only [yields n (by omega),Bool.false_eq_true,if_false]

theorem Yields.error (live : s.terminal = false) {error : ProviderError}
    (passed : s.pass endpoint transport = (.Return (.error error),s₁)) :
    Yields endpoint transport s [.Err error none] { s₁ with terminal := true } := by
  obtain ⟨enough,yields⟩ := @Yields.stop endpoint transport { s₁ with terminal := true } rfl
  refine ⟨enough + 1,fun passes some_ => ?_⟩
  obtain ⟨n,rfl⟩ := Nat.exists_eq_add_of_le' (Nat.le_of_add_left_le some_)
  rw [unfold,live,passed]
  simp only [yields n (by omega),Bool.false_eq_true,if_false]

theorem unfold_grows (passes more : Nat) (s : Resume) :
    (unfold endpoint transport passes s).1 <+: (unfold endpoint transport (passes + more) s).1 := by
  induction passes generalizing s with
  | zero => exact nil_prefix
  | succ n ih =>
    rw [Nat.add_right_comm,unfold,unfold]
    split
    · exact prefix_refl []
    · split
      · exact ih _
      · exact (prefix_cons_inj _).mpr (ih _)
      · exact (prefix_cons_inj _).mpr (ih _)

end

section
variable {endpoint : Except ProviderError Unit} {transport : Transport} {log : List Event} {received : Nat → List Event} {i : Nat}
  {done left again : List Event} {tail out : List ParseResult} {s s' s₀ : Resume} {error : ProviderError}

structure Whole (endpoint : Except ProviderError Unit) (log : List Event) (transport : Transport) (received : Nat → List Event)
    (i : Nat) : Prop where
  reached : endpoint = .ok ()
  ends : ∃ e ∈ log, e.ends = true
  completed : Completed log transport received i

structure Told (log done : List Event) (whole : Prop) (out : List ParseResult) (s' : Resume) : Prop where
  events : ∃ more errors, out = more.map (·.result) ++ errors ∧ done ++ more <+: log ∧
    (errors = [] ∨ (∃ error raw, errors = [.Err error raw]) ∧ ∀ e ∈ done ++ more, e.ends = false) ∧
    (whole → done ++ more = log ∧ errors = [])
  terminal : s'.terminal = true
  connections : s'.connections ≤ 3

structure Waiting (received : Nat → List Event) (i : Nat) (s : Resume) : Prop where
  current : s.current = none
  last : s.last_event_id = last_id (received i)
  attempts : s.attempts = i
  connections : s.connections = i
  live : s.terminal = false
  before : ∀ e ∈ received i, e.ends = false

structure Reading (transport : Transport) (received : Nat → List Event) (i : Nat) (done again left : List Event)
    (tail : List ParseResult) (s : Resume) : Prop where
  current : s.current = some ((again ++ left).map (·.result) ++ tail)
  last : s.last_event_id = last_id done
  attempts : s.attempts = i
  connections : s.connections = i + 1
  live : s.terminal = false
  before : ∀ e ∈ done, e.ends = false
  rest : done ++ left = received (i + 1)
  boundary : again = [] ∨ ∃ e, done.getLast? = some e ∧ again = [e]
  ends : Ends tail
  hidden : Retryable (transport i (last_id (received i))) → ∀ error raw more, tail = .Err error raw :: more →
    ∃ message, error = .ApiCall message true

def Goes (endpoint : Except ProviderError Unit) (transport : Transport) (log : List Event) (received : Nat → List Event)
    (i : Nat) (done : List Event) (s : Resume) : Prop :=
  ∃ out s', Yields endpoint transport s out s' ∧ Told log done (Whole endpoint log transport received i) out s'

theorem Told.event {e : Event} {whole : Prop} (told : Told log (done ++ [e]) whole out s') :
    Told log done whole (e.result :: out) s' := by
  obtain ⟨⟨more,errors,rfl,first,last,all⟩,terminal,connections⟩ := told
  simp only [append_assoc,singleton_append] at first last all
  exact ⟨⟨e :: more,errors,rfl,first,last,all⟩,terminal,connections⟩

theorem Told.failed {whole : Prop} (first : done <+: log) (before : ∀ e ∈ done, e.ends = false) (lost : ¬ whole)
    (error : ProviderError) (raw : Option String) (terminal : s'.terminal = true) (connections : s'.connections ≤ 3) :
    Told log done whole [.Err error raw] s' :=
  ⟨⟨[],[.Err error raw],rfl,by simpa using first,.inr ⟨⟨error,raw,rfl⟩,by simpa using before⟩,fun all => absurd all lost⟩,terminal,
    connections⟩

theorem Whole.later (whole : Whole endpoint log transport received i) (before : ∀ e ∈ received (i + 1), e.ends = false) :
    received (i + 1) ≠ [] ∧ Retryable (transport i (last_id (received i))) ∧ i + 1 < 3 ∧
      Whole endpoint log transport received (i + 1) := by
  obtain ⟨reached,⟨e,mem,ends⟩,c,few,_,all,fails⟩ := whole
  have later : i ≠ c := by
    rintro rfl
    rw [← all] at mem
    exact absurd ends (by simp [before e mem])
  obtain ⟨some_,retryable⟩ := fails i le_rfl (by omega)
  exact ⟨some_,retryable,by omega,reached,⟨e,mem,ends⟩,c,few,by omega,all,fun j _ => fails j (by omega)⟩

theorem last_id_eq_none (named : ∀ e ∈ done, e.id.isSome) (none_ : last_id done = none) : done = [] := by
  rcases eq_nil_or_concat' done with rfl | ⟨_,e,rfl⟩
  · rfl
  · have := named e (by simp)
    rw [last_id,getLast?_concat,Option.bind_some] at none_
    simp [none_] at this

theorem retry_eq (attempts : s.attempts = i) (few : i < 3) (other : error ≠ .Cancelled) : s.retry error =
    (if i + 1 ≥ 3 then .Return (.error error) else .Continue,{ s with attempts := i + 1 }) := by
  have count : min (i + 1) 255 = i + 1 := by omega
  cases error with
  | Cancelled => exact absurd rfl other
  | _ =>
    simp only [Resume.retry,attempts,count,Bool.false_eq_true,or_false]
    split_ifs <;> rfl

theorem lost (few : i < 3) (first : received (i + 1) <+: log) (before : ∀ e ∈ received (i + 1), e.ends = false)
    (next : i + 1 < 3 → ∀ s, Waiting received (i + 1) s → Goes endpoint transport log received (i + 1) (received (i + 1)) s)
    (live : s.terminal = false) (passed : s.pass endpoint transport = s₀.retry error) (other : error ≠ .Cancelled)
    (current : s₀.current = none) (last : s₀.last_event_id = last_id (received (i + 1))) (attempts : s₀.attempts = i)
    (connections : s₀.connections = i + 1) (live' : s₀.terminal = false) :
    Goes endpoint transport log received i (received (i + 1)) s := by
  rw [retry_eq attempts few other] at passed
  by_cases final : i + 1 ≥ 3
  · rw [if_pos final] at passed
    exact ⟨_,_,.error live passed,.failed first before (fun whole => absurd (whole.later before).2.2.1 (by omega)) _ _ rfl
      (by dsimp only; omega)⟩
  · rw [if_neg final] at passed
    obtain ⟨out,s',yields,⟨more,errors,told,prefix_,end_,all⟩,terminal,few⟩ :=
      next (by omega) { s₀ with attempts := i + 1 } ⟨current,last,rfl,connections,live',before⟩
    exact ⟨out,s',.again live passed yields,⟨more,errors,told,prefix_,end_,fun whole => all (whole.later before).2.2.2⟩,terminal,few⟩

theorem pass_reading (current : s.current = some out) : s.pass endpoint transport = s.receive out := by
  simp only [Resume.pass,current]

theorem reads_tail (few : i < 3) (named : ∀ e ∈ log, e.id.isSome) (first : received (i + 1) <+: log)
    (next : i + 1 < 3 → ∀ s, Waiting received (i + 1) s → Goes endpoint transport log received (i + 1) (received (i + 1)) s)
    (r : Reading transport received i (received (i + 1)) [] [] tail s) :
    Goes endpoint transport log received i (received (i + 1)) s := by
  have passed : s.pass endpoint transport = _ := pass_reading r.current
  have unnamed (none_ : s.last_event_id = none) : received (i + 1) = [] :=
    last_id_eq_none (fun e mem => named e (first.subset mem)) (r.last ▸ none_)
  have bound : s.connections ≤ 3 := by rw [r.connections]; omega
  rcases r.ends with rfl | ⟨error,raw,more,rfl,other⟩
  · by_cases none_ : s.last_event_id = none
    · simp only [append_nil,map_nil,Resume.receive,none_,Option.isNone_none,if_true] at passed
      exact ⟨_,_,.error r.live passed,.failed first r.before (fun whole => (whole.later r.before).1 (unnamed none_)) _ _ rfl bound⟩
    · simp only [append_nil,map_nil,Resume.receive,Option.isNone_iff_eq_none,none_,if_false] at passed
      exact lost few first r.before next r.live passed nofun rfl r.last r.attempts r.connections r.live
  · have shown (terminal : s.pass endpoint transport =
        (.Return (.ok (.Err error raw)),{ s with current := some more,terminal := true }))
        (lost : ¬ Whole endpoint log transport received i) : Goes endpoint transport log received i (received (i + 1)) s :=
      ⟨_,_,.result r.live terminal (.stop rfl),.failed first r.before lost _ _ rfl bound⟩
    have hard (whole : Whole endpoint log transport received i) : ∃ message, error = .ApiCall message true :=
      r.hidden (whole.later r.before).2.1 _ _ _ rfl
    simp only [append_nil,map_nil,nil_append] at passed
    cases error with
    | Cancelled => exact absurd rfl other
    | ApiCall _ is_retryable =>
      cases is_retryable with
      | false => exact shown passed fun whole => by simpa using hard whole
      | true =>
        by_cases none_ : s.last_event_id = none
        · have absent : s.last_event_id.isSome = false := by rw [none_]; rfl
          simp only [Resume.receive,absent,Bool.false_eq_true,if_false] at passed
          exact shown passed fun whole => (whole.later r.before).1 (unnamed none_)
        · simp only [Resume.receive,Option.isSome_iff_ne_none,ne_eq,none_,not_false_iff,if_true] at passed
          exact lost few first r.before next r.live passed nofun rfl r.last r.attempts r.connections r.live
    | InvalidArgument | InvalidResponseData | Other => exact shown passed fun whole => by simpa using hard whole

theorem last_id_ne (l : Log log) {e : Event} {after : List Event} (here : log = done ++ e :: after) : e.id ≠ last_id done := by
  rcases eq_nil_or_concat' done with rfl | ⟨_,d,rfl⟩
  · exact fun same => absurd (l.named e (by simp [here])) (by simp [same,last_id])
  · rw [last_id,getLast?_concat,Option.bind_some]
    intro same
    have distinct := l.distinct
    rw [here,append_assoc,map_append] at distinct
    have later := (nodup_append.mp distinct).2.1
    simp [same] at later

theorem reads (l : Log log) (few : i < 3) (first : received (i + 1) <+: log)
    (next : i + 1 < 3 → ∀ s, Waiting received (i + 1) s → Goes endpoint transport log received (i + 1) (received (i + 1)) s)
    (r : Reading transport received i done [] left tail s) : Goes endpoint transport log received i done s := by
  induction left generalizing done s with
  | nil =>
    obtain rfl : done = received (i + 1) := by simpa using r.rest
    exact reads_tail few l.named first next r
  | cons e left ih =>
    obtain ⟨after,whole⟩ := first
    rw [← r.rest,append_assoc,cons_append] at whole
    have other : Resume.event_id e.value ≠ last_id done := last_id_ne l whole.symm
    have id : (Resume.event_id e.value).or (last_id done) = last_id (done ++ [e]) := by
      obtain ⟨_,found⟩ := Option.isSome_iff_exists.mp (l.named e (by simp [← whole]))
      rw [Event.id] at found
      rw [found,Option.some_or,last_id,getLast?_concat,Option.bind_some,Event.id,found]
    have passed : s.pass endpoint transport = _ := pass_reading r.current
    simp only [nil_append,map_cons,cons_append,Event.result,Resume.receive,r.last,other,and_false,if_false,id] at passed
    cases ends : Resume.is_terminal e.value with
    | true =>
      simp only [ends,if_true] at passed
      have nothing := append_eq_nil_iff.mp (l.terminal _ _ _ whole.symm ends)
      refine ⟨_,_,.result r.live passed (.stop rfl),⟨[e],[],rfl,?_,.inl rfl,fun _ => ⟨?_,rfl⟩⟩,rfl,?_⟩
      · exact ⟨left ++ after,by rw [← whole]; simp⟩
      · rw [← whole,nothing.1,nothing.2]
        rfl
      · dsimp only
        rw [r.connections]
        omega
    | false =>
      simp only [ends,Bool.false_eq_true,if_false] at passed
      have r' : Reading transport received i (done ++ [e]) [] left tail
          { s with current := some (left.map (·.result) ++ tail),last_event_id := last_id (done ++ [e]) } := by
        refine ⟨rfl,rfl,r.attempts,r.connections,r.live,?_,by simpa using r.rest,.inl rfl,r.ends,r.hidden⟩
        intro d mem
        rcases mem_append.mp mem with mem | mem
        · exact r.before d mem
        · exact mem_singleton.mp mem ▸ ends
      obtain ⟨_,s',yields,told⟩ := ih r'
      exact ⟨_,s',.result r.live passed yields,told.event⟩

theorem reads_again (l : Log log) (few : i < 3) (first : received (i + 1) <+: log)
    (next : i + 1 < 3 → ∀ s, Waiting received (i + 1) s → Goes endpoint transport log received (i + 1) (received (i + 1)) s)
    (r : Reading transport received i done again left tail s) : Goes endpoint transport log received i done s := by
  rcases r.boundary with rfl | ⟨e,last,rfl⟩
  · exact reads l few first next r
  · have passed : s.pass endpoint transport = _ := pass_reading r.current
    have id : Resume.event_id e.value = last_id done := by rw [last_id,last]; rfl
    have mem : e ∈ log := first.subset (r.rest ▸ mem_append_left _ (mem_of_getLast? last))
    have named : (last_id done).isSome = true := id ▸ l.named e mem
    simp only [map_cons,cons_append,Event.result,Resume.receive,r.last,id,named,and_self,if_true] at passed
    have r' : Reading transport received i done [] left tail { s with current := some (left.map (·.result) ++ tail) } :=
      ⟨rfl,r.last,r.attempts,r.connections,r.live,r.before,r.rest,.inl rfl,r.ends,r.hidden⟩
    obtain ⟨out,s',yields,told⟩ := reads l few first next r'
    refine ⟨out,s',.again r.live ?_ yields,told⟩
    rw [passed]
    exact congrArg (Resume.Pass.Continue,·) (by rw [← r.last]; rfl)

theorem Yields.of_pass (same : s.pass endpoint transport = s₀.pass endpoint transport) (live : s.terminal = false)
    (live' : s₀.terminal = false) (yields : Yields endpoint transport s₀ out s') :
    Yields endpoint transport s out s' := by
  obtain ⟨enough,yields⟩ := yields
  refine ⟨enough + 1,fun passes some_ => ?_⟩
  obtain ⟨n,rfl⟩ := Nat.exists_eq_add_of_le' (Nat.le_of_add_left_le some_)
  have done := yields (n + 1) (by omega)
  rw [unfold,live'] at done
  rw [unfold,live,same]
  exact done

theorem pass_opening (w : Waiting received i s) : s.pass (.ok ()) transport =
    match transport i (last_id (received i)) with
    | .ok stream => Resume.receive { s with connections := i + 1,current := some stream } stream
    | .error error => Resume.retry { s with connections := i + 1 } error := by
  simp only [Resume.pass,w.current,w.last,w.connections]

theorem connects (l : Log log) (served : Served log transport received) (few : i < 3)
    (next : i + 1 < 3 → ∀ s, Waiting received (i + 1) s → Goes endpoint transport log received (i + 1) (received (i + 1)) s)
    (w : Waiting received i s) : Goes endpoint transport log received i (received i) s := by
  obtain ⟨rest,brought,whole,after,serves⟩ := served.serves i few
  cases endpoint with
  | error error =>
    have passed : s.pass (.error error) transport = (.Return (.error error),s) := by simp only [Resume.pass,w.current]
    exact ⟨_,_,.error w.live passed,.failed ⟨rest,whole.symm⟩ w.before (fun whole => by cases whole.reached) _ _ rfl
      (by dsimp only; rw [w.connections]; omega)⟩
  | ok _ =>
    have passed : s.pass (.ok ()) transport = _ := pass_opening w
    generalize answer : transport i (last_id (received i)) = response at serves passed
    cases serves with
    | failed other =>
      rw [append_nil] at after
      rw [← after]
      exact lost few (after ▸ ⟨rest,whole.symm⟩) (after ▸ w.before) next w.live passed other w.current (after ▸ w.last) w.attempts rfl
        w.live
    | @read _ again tail first boundary ends =>
      have known : received (i + 1) <+: log := by
        rw [after,whole]
        exact (prefix_append_right_inj _).mpr first
      have hidden : Retryable (transport i (last_id (received i))) → ∀ error raw more, tail = .Err error raw :: more →
          ∃ message, error = .ApiCall message true := by
        rw [answer]
        rintro retryable error raw more rfl
        refine retryable _ error raw more rfl fun result mem => ?_
        obtain ⟨e,-,rfl⟩ := mem_map.mp mem
        rfl
      generalize stream_ : (again ++ brought).map (·.result) ++ tail = stream at passed
      have reading : Reading transport received i (received i) again brought tail
          { s with connections := i + 1,current := some stream } :=
        ⟨congrArg some stream_.symm,w.last,w.attempts,rfl,w.live,w.before,after.symm,boundary,ends,hidden⟩
      obtain ⟨out,s',yields,told⟩ := reads_again l few known next reading
      have same : s.pass (.ok ()) transport =
          Resume.pass (.ok ()) transport { s with connections := i + 1,current := some stream } := by
        rw [passed,pass_reading rfl]
      exact ⟨out,s',.of_pass same w.live w.live yields,told⟩

theorem connects_all (l : Log log) (served : Served log transport received) (left : Nat) :
    ∀ i, i + left = 2 → ∀ s, Waiting received i s → Goes endpoint transport log received i (received i) s := by
  induction left with
  | zero => exact fun i sum s w => connects l served (by omega) (fun more => absurd more (by omega)) w
  | succ _ ih => exact fun i sum s w => connects l served (by omega) (fun _ => ih (i + 1) (by omega)) w

theorem resumed_once (endpoint : Except ProviderError Unit) (l : Log log) (served : Served log transport received) :
    ∃ events errors s', (∃ enough, ∀ passes ≥ enough, stream endpoint transport passes = (events.map (·.result) ++ errors,s')) ∧
      (∀ passes, (stream endpoint transport passes).1 <+: events.map (·.result) ++ errors) ∧ events <+: log ∧
      (errors = [] ∨ (∃ error raw, errors = [.Err error raw]) ∧ ∀ e ∈ events, e.ends = false) ∧
      s'.terminal = true ∧ s'.connections ≤ 3 ∧ (Whole endpoint log transport received 0 → events = log ∧ errors = []) := by
  have waiting : Waiting received 0 ⟨none,none,0,false,0⟩ :=
    ⟨rfl,by rw [served.start]; rfl,rfl,rfl,rfl,by rw [served.start]; nofun⟩
  obtain ⟨_,s',yields,⟨events,errors,rfl,first,errors_,whole⟩,terminal,few⟩ := connects_all l served 2 0 rfl _ waiting
  rw [served.start,nil_append] at first errors_ whole
  refine ⟨events,errors,s',yields,fun passes => ?_,first,errors_,terminal,few,whole⟩
  obtain ⟨enough,yields⟩ := yields
  have later := yields (passes + enough) (by omega)
  have := @unfold_grows endpoint transport passes enough ⟨none,none,0,false,0⟩
  rwa [later] at this

end

/-! ### A log that is cut once -/

def firstEvent : Event := ⟨.object [("event_id",.string "1")],.null⟩
def lastEvent : Event := ⟨.object [("event_id",.string "2"),("event_type",.string "interaction.completed")],.null⟩

/-- The first connection ends behind the first event, and the second one brings it again. -/
def cutTransport : Transport
  | 0,_ => .ok [firstEvent.result]
  | 1,_ => .ok [firstEvent.result,lastEvent.result]
  | _,_ => .ok []

def cutReceived : Nat → List Event
  | 0 => []
  | 1 => [firstEvent]
  | _ => [firstEvent,lastEvent]

theorem resumed_cut_log : ∃ s', ∃ enough, ∀ passes ≥ enough,
    stream (url false "background") cutTransport passes = ([firstEvent.result,lastEvent.result],s') := by
  have l : Log [firstEvent,lastEvent] := by
    refine ⟨by decide,by decide,fun before e after whole ends => ?_⟩
    match before,whole with
    | [],whole =>
      obtain ⟨rfl,-⟩ := List.cons.inj whole
      exact absurd ends (by decide)
    | [_],whole => exact (List.cons.inj (List.cons.inj whole).2).2.symm
    | _ :: _ :: _,whole => simp at whole
  have served : Served [firstEvent,lastEvent] cutTransport cutReceived := by
    refine ⟨rfl,fun i few => ?_⟩
    match i,few with
    | 0,_ => exact ⟨_,[firstEvent],rfl,rfl,@Serves.read [] _ [firstEvent] [] [] ⟨[lastEvent],rfl⟩ (.inl rfl) (.inl rfl)⟩
    | 1,_ => exact ⟨_,[lastEvent],rfl,rfl,@Serves.read [firstEvent] _ [lastEvent] [firstEvent] [] ⟨[],rfl⟩ (.inr ⟨_,rfl,rfl⟩) (.inl rfl)⟩
    | 2,_ => exact ⟨[],[],rfl,rfl,@Serves.read [firstEvent,lastEvent] [] [] [] [] ⟨[],rfl⟩ (.inl rfl) (.inl rfl)⟩
  obtain ⟨events,errors,s',yields,-,-,-,-,-,whole⟩ := resumed_once (url false "background") l served
  obtain ⟨rfl,rfl⟩ := whole ⟨(if_neg (by decide)).trans (if_neg nofun),⟨lastEvent,by simp,by decide⟩,1,by decide,by decide,rfl,fun j _ before => by
    obtain rfl : j = 0 := by omega
    refine ⟨nofun,fun oks error raw more same oks_ => ?_⟩
    match oks,same with
    | [],same => exact absurd (List.cons.inj same).1 nofun
    | _ :: _,same => simp at same⟩
  exact ⟨s',yields⟩

end Ferrin.Google.Background
