import Ferrin.StreamText.Events

/-!
`smooth_stream`: deltas are buffered and sent again in chunks. Whatever the chunks
are, merging adjacent deltas gives the same before and after (`smooth_stream_conserves`).
-/
namespace Ferrin.StreamText.Smooth
open Ferrin.GenerateText List

/-! ### Buffers -/

/-- A text cut after so many bytes, when a character ends there. -/
def split_at : List Char → Nat → Option (List Char × List Char)
  | text, 0 => some ([],text)
  | [], _ + 1 => none
  | c :: text, n + 1 =>
    if c.utf8Size ≤ n + 1 then (split_at text (n + 1 - c.utf8Size)).map fun (before,after) => (c :: before,after)
    else none

def len (text : List Char) : Nat := (text.map Char.utf8Size).sum

theorem split_at_some : ∀ {text before after : List Char} {n : Nat}, split_at text n = some (before,after) →
    text = before ++ after ∧ (n ≠ 0 → before ≠ []) := by
  intro text
  induction text with
  | nil =>
    intro before after n split
    cases n with
    | zero =>
      cases split
      exact ⟨rfl,fun differs => absurd rfl differs⟩
    | succ => cases split
  | cons _ _ ih =>
    intro before after n split
    cases n with
    | zero =>
      cases split
      exact ⟨rfl,fun differs => absurd rfl differs⟩
    | succ =>
      rw [split_at] at split
      split_ifs at split with fits
      obtain ⟨⟨_,_⟩,cut,same⟩ := Option.map_eq_some_iff.mp split
      cases same
      obtain ⟨rfl,-⟩ := ih cut
      exact ⟨rfl,fun _ => cons_ne_nil _ _⟩

theorem split_at_len (before after : List Char) : split_at (before ++ after) (len before) = some (before,after) := by
  induction before with
  | nil => cases after <;> rfl
  | cons c before ih =>
    have positive := Char.utf8Size_pos c
    obtain ⟨n,size⟩ : ∃ n, len (c :: before) = n + 1 := ⟨len (c :: before) - 1,by simp [len]; omega⟩
    have fits : c.utf8Size ≤ n + 1 := by
      rw [← size]
      simp [len]
    have rest : n + 1 - c.utf8Size = len before := by
      rw [← size]
      simp [len]
    rw [size,cons_append,split_at,if_pos fits,rest,ih]
    rfl

/-- How buffered text is split into chunks. A regular expression is known by its first match, from where to where, and
    the segmentation by the first segment of a text. -/
inductive Chunking where
  | Word
  | Line
  | Regex (find : List Char → Option (Nat × Nat))
  | UnicodeWords (first_segment : List Char → Option (List Char))
  | Detector (detector : List Char → Option Nat)

/-- The loop of `word_chunk`, `index` bytes into the buffer. -/
def word_chunk_from (index : Nat) (seen_word in_trailing_space : Bool) : List Char → Option Nat
  | [] => if in_trailing_space then some index else none
  | c :: rest =>
    if !seen_word then word_chunk_from (index + c.utf8Size) (!is_whitespace c) in_trailing_space rest
    else if is_whitespace c then word_chunk_from (index + c.utf8Size) seen_word true rest
    else if in_trailing_space then some index
    else word_chunk_from (index + c.utf8Size) seen_word in_trailing_space rest

/-- The end of the first word with the space after it. -/
def word_chunk (buffer : List Char) : Option Nat := word_chunk_from 0 false false buffer

/-- The end of the first run of newlines. -/
def line_chunk (buffer : List Char) : Option Nat :=
  match buffer.dropWhile (· ≠ '\n') with
  | [] => none
  | rest => some (len (buffer.takeWhile (· ≠ '\n')) + len (rest.takeWhile (· = '\n')))

namespace Chunking

def end_of (chunking : Chunking) (buffer : List Char) : Except Error (Option Nat) :=
  match chunking with
  | .Word => .ok (word_chunk buffer)
  | .Line => .ok (line_chunk buffer)
  | .Regex find =>
    match find buffer with
    | some (start,stop) =>
      if start = stop then .error (.InvalidArgument "chunking" "chunking regex must not match an empty string")
      else .ok (some stop)
    | none => .ok none
  | .UnicodeWords first_segment => .ok ((first_segment buffer).map len)
  | .Detector detector => .ok (detector buffer)

def detect_checked (chunking : Chunking) (buffer : List Char) : Except Error (Option Nat) := do
  match ← chunking.end_of buffer with
  | some stop =>
    if stop = 0 ∨ len buffer < stop ∨ (split_at buffer stop).isNone then
      .error (.InvalidArgument "chunking" "chunk detector must return a nonempty UTF-8 prefix length")
    else return some stop
  | none => return none

def Succeeds (chunking : Chunking) : Prop := ∀ buffer, ∃ found, chunking.detect_checked buffer = .ok found

end Chunking

variable {chunking : Chunking} {buffer text : List Char} {a b c : List StreamEvent}

theorem detect_checked_some {stop : Nat} (found : chunking.detect_checked buffer = .ok (some stop)) :
    ∃ chunk rest, split_at buffer stop = some (chunk,rest) ∧ buffer = chunk ++ rest ∧ chunk ≠ [] := by
  obtain ⟨found',-,checked⟩ := Result.bind_ok.mp found
  cases found' with
  | none => cases checked
  | some =>
    simp only at checked
    split_ifs at checked with bad
    cases checked
    push Not at bad
    obtain ⟨⟨chunk,rest⟩,cut⟩ := Option.ne_none_iff_exists'.mp (by simpa using bad.2.2)
    obtain ⟨whole,nonempty⟩ := split_at_some cut
    exact ⟨chunk,rest,cut,whole,nonempty bad.1⟩

theorem len_append (before after : List Char) : len (before ++ after) = len before + len after := by simp [len]

theorem len_pos (nonempty : text ≠ []) : 0 < len text := by
  cases text with
  | nil => exact absurd rfl nonempty
  | cons c =>
    have positive := Char.utf8Size_pos c
    simp [len]
    omega

theorem detect_checked_start {before after : List Char} (whole : buffer = before ++ after)
    (nonempty : before ≠ []) (found : chunking.end_of buffer = .ok (some (len before))) :
    chunking.detect_checked buffer = .ok (some (len before)) := by
  subst whole
  have positive := len_pos nonempty
  have within : ¬ (len before = 0 ∨ len (before ++ after) < len before ∨
      (split_at (before ++ after) (len before)).isNone = true) := by
    rw [split_at_len,len_append]
    simp
    omega
  rw [Chunking.detect_checked,found]
  exact if_neg within

theorem detect_checked_none (found : chunking.end_of buffer = .ok none) :
    chunking.detect_checked buffer = .ok none := by
  rw [Chunking.detect_checked,found]
  rfl

theorem word_chunk_from_some {index n : Nat} {seen_word in_trailing_space : Bool}
    (found : word_chunk_from index seen_word in_trailing_space text = some n) :
    ∃ before after, text = before ++ after ∧ n = index + len before ∧ (in_trailing_space = false → before ≠ []) := by
  induction text generalizing index seen_word in_trailing_space with
  | nil =>
    simp only [word_chunk_from] at found
    split_ifs at found with space
    cases found
    exact ⟨[],[],rfl,rfl,by simp [space]⟩
  | cons c rest ih =>
    have more : ∀ {seen in_space : Bool}, word_chunk_from (index + c.utf8Size) seen in_space rest = some n →
        ∃ before after, c :: rest = before ++ after ∧ n = index + len before ∧ (in_trailing_space = false → before ≠ []) := by
      intro seen in_space later
      obtain ⟨before,after,rfl,rfl,-⟩ := ih later
      exact ⟨c :: before,after,rfl,by simp [len]; omega,fun _ => cons_ne_nil _ _⟩
    simp only [word_chunk_from] at found
    split_ifs at found with unseen space trailing
    · exact more found
    · exact more found
    · cases found
      exact ⟨[],c :: rest,rfl,rfl,by simp [trailing]⟩
    · exact more found

theorem word_succeeds : Chunking.Word.Succeeds := by
  intro buffer
  cases found : word_chunk buffer with
  | none => exact ⟨none,detect_checked_none (congrArg Except.ok found)⟩
  | some =>
    obtain ⟨_,_,rfl,rfl,nonempty⟩ := word_chunk_from_some found
    rw [Nat.zero_add] at found
    exact ⟨_,detect_checked_start rfl (nonempty rfl) (congrArg Except.ok found)⟩

def chunks (chunking : Chunking) (buffer : List Char) : Except Error (List (List Char) × List Char) :=
  match _found : chunking.detect_checked buffer with
  | .error error => .error error
  | .ok none => .ok ([],buffer)
  | .ok (some stop) =>
    match _cut : split_at buffer stop with
    | some (chunk,rest) => do
      let (more,left) ← chunks chunking rest
      return (chunk :: more,left)
    | none => .ok ([],buffer)
termination_by buffer.length
decreasing_by
  obtain ⟨_,_,cut',whole,nonempty⟩ := detect_checked_some _found
  rw [_cut] at cut'
  cases cut'
  rw [whole,List.length_append]
  have positive := List.length_pos_of_ne_nil nonempty
  omega

def delta (part : Kind × PartId) (text : List Char) (provider_metadata : Option ProviderMetadata) : StreamEvent :=
  match part.1 with
  | .text => .TextDelta part.2 (String.ofList text) provider_metadata
  | .reasoning => .ReasoningDelta part.2 (String.ofList text) provider_metadata

structure SmoothState where
  input : List StreamEvent
  buffer : List Char
  current : Option (Kind × PartId)
  provider_metadata : Option ProviderMetadata
  pending : List (Except Error StreamEvent × Bool)
  delay_pending : Bool
  done : Bool
  pauses : Nat

namespace SmoothState

def new (input : List StreamEvent) : SmoothState := ⟨input,[],none,none,[],false,false,0⟩

def flush (s : SmoothState) : SmoothState :=
  if s.buffer.isEmpty && s.provider_metadata.isNone then s
  else
    let event := s.current.map fun part => (.ok (delta part s.buffer s.provider_metadata),false)
    { s with buffer := [],provider_metadata := none,pending := s.pending ++ event.toList }

def smooth (chunking : Chunking) (s : SmoothState) (part : Kind × PartId) (text : String)
    (provider_metadata : Option ProviderMetadata) : Except Error SmoothState := do
  let s := if s.current = some part then s else s.flush
  let (cut,left) ← chunks chunking (s.buffer ++ text.toList)
  return { s with
    buffer := left
    current := some part
    provider_metadata := provider_metadata.or s.provider_metadata
    pending := s.pending ++ cut.map fun chunk => (.ok (delta part chunk none),true) }

def handle (chunking : Chunking) (s : SmoothState) : StreamEvent → Except Error SmoothState
  | .TextDelta id text provider_metadata => s.smooth chunking (.text,id) text provider_metadata
  | .ReasoningDelta id text provider_metadata => s.smooth chunking (.reasoning,id) text provider_metadata
  | other =>
    let s := s.flush
    .ok { s with pending := s.pending ++ [(.ok other,false)] }

/-- One round of the loop in `SmoothStream::apply`, with what it sends. `cancelled k` tells whether the call is
    cancelled during pause `k`. -/
def round (chunking : Chunking) (delay : Option Nat) (cancelled : Nat → Bool) (s : SmoothState) :
    Option (Option (Except Error StreamEvent) × SmoothState) :=
  match s.pending with
  | (event,delay_after) :: pending =>
    let paused := s.delay_pending && delay.isSome
    if paused && cancelled s.pauses then
      some (none,{ s with pending := [],buffer := [],delay_pending := false,pauses := s.pauses + 1 })
    else some (some event,{ s with
      pending
      delay_pending := delay_after
      pauses := if paused then s.pauses + 1 else s.pauses })
  | [] =>
    if s.done then none
    else
      match s.input with
      | event :: input =>
        match handle chunking { s with input } event with
        | .ok s => some (none,s)
        | .error error => some (none,{ s with
          input
          buffer := []
          pending := [(.error error,false)]
          delay_pending := false
          done := true })
      | [] => some (none,flush { s with done := true })

/-- What at most `n` rounds send. -/
def rounds (chunking : Chunking) (delay : Option Nat) (cancelled : Nat → Bool) :
    Nat → SmoothState → List (Except Error StreamEvent) × SmoothState
  | 0, s => ([],s)
  | n + 1, s =>
    match s.round chunking delay cancelled with
    | none => ([],s)
    | some (event,next) =>
      let (later,last) := rounds chunking delay cancelled n next
      (event.toList ++ later,last)

end SmoothState

/-! ### Runs of deltas -/

def isDelta : StreamEvent → Option ((Kind × PartId) × List Char × Option ProviderMetadata)
  | .TextDelta id text provider_metadata => some ((.text,id),text.toList,provider_metadata)
  | .ReasoningDelta id text provider_metadata => some ((.reasoning,id),text.toList,provider_metadata)
  | _ => none

/-- An event before others: a delta is merged with a delta of the same part, with the later metadata, and is dropped
    when it has neither text nor metadata. -/
def join (event : StreamEvent) (rest : List StreamEvent) : List StreamEvent :=
  match isDelta event with
  | none => event :: rest
  | some (part,text,metadata) =>
    if text = [] ∧ metadata = none then rest
    else
      match rest with
      | [] => [event]
      | next :: later =>
        match isDelta next with
        | some (part',text',metadata') =>
          if part = part' then delta part (text ++ text') (metadata'.or metadata) :: later else event :: rest
        | none => event :: rest

def merged (events : List StreamEvent) : List StreamEvent := events.foldr join []

variable (part : Kind × PartId)

@[simp] theorem isDelta_delta (text : List Char) (metadata : Option ProviderMetadata) :
    isDelta (delta part text metadata) = some (part,text,metadata) := by
  obtain ⟨kind,_⟩ := part
  cases kind <;> simp [delta,isDelta]

theorem delta_of_isDelta {event : StreamEvent} {part : Kind × PartId} {metadata : Option ProviderMetadata}
    (isDelta_ : isDelta event = some (part,text,metadata)) : event = delta part text metadata := by
  cases event <;> simp only [isDelta,reduceCtorEq,Option.some.injEq] at isDelta_
  all_goals
    cases isDelta_
    simp [delta]

theorem join_join (first second : List Char) (metadata later : Option ProviderMetadata)
    (rest : List StreamEvent) : join (delta part first metadata) (join (delta part second later) rest) =
      join (delta part (first ++ second) (later.or metadata)) rest := by
  by_cases bare : second = [] ∧ later = none
  · obtain ⟨rfl,rfl⟩ := bare
    simp [join]
  by_cases none_ : first = [] ∧ metadata = none
  · obtain ⟨rfl,rfl⟩ := none_
    simp [join]
  have some_ : ¬ (first ++ second = [] ∧ later.or metadata = none) := by
    rintro ⟨text,data⟩
    rw [append_eq_nil_iff] at text
    rw [Option.or_eq_none_iff] at data
    exact bare ⟨text.2,data.1⟩
  have one : join (delta part (first ++ second) (later.or metadata)) rest =
      match rest with
      | [] => [delta part (first ++ second) (later.or metadata)]
      | next :: after =>
        match isDelta next with
        | some (part',text,latest) =>
          if part = part' then delta part (first ++ second ++ text) (latest.or (later.or metadata)) :: after
          else delta part (first ++ second) (later.or metadata) :: rest
        | none => delta part (first ++ second) (later.or metadata) :: rest := by
    rw [join,isDelta_delta]
    simp only
    rw [if_neg some_]
  rw [one]
  cases rest with
  | nil => simp [join,bare,none_]
  | cons next =>
    cases isNext : isDelta next with
    | none => simp [join,bare,none_,isNext]
    | some shape =>
      obtain ⟨part',_,_⟩ := shape
      by_cases same : part = part'
      · simp [join,bare,none_,isNext,same,Option.or_assoc]
      · simp [join,bare,none_,isNext,same]

@[simp] theorem join_nothing (rest : List StreamEvent) : join (delta part [] none) rest = rest := by
  simp [join]

/-- Events that are merged alike, whatever follows. -/
def Same (events others : List StreamEvent) : Prop := ∀ rest, events.foldr join rest = others.foldr join rest

theorem Same.append {d : List StreamEvent} (first : Same a b) (second : Same c d) : Same (a ++ c) (b ++ d) := by
  intro rest
  rw [foldr_append,foldr_append,second rest,first]

theorem Same.trans (first : Same a b) (second : Same b c) : Same a c :=
  fun rest => (first rest).trans (second rest)

theorem Same.refl (a : List StreamEvent) : Same a a := fun _ => rfl

theorem same_chunks (cut : List (List Char)) (left : List Char) (metadata : Option ProviderMetadata) :
    Same (cut.map (delta part · none) ++ [delta part left metadata]) [delta part (cut.flatten ++ left) metadata] := by
  induction cut with
  | nil => exact .refl _
  | cons _ _ ih =>
    intro rest
    have later := ih rest
    simp only [foldr_append,foldr_cons,foldr_nil] at later
    simp [later,join_join]

theorem chunks_spec (succeeds : chunking.Succeeds) (buffer : List Char) :
    ∃ cut left, chunks chunking buffer = .ok (cut,left) ∧ buffer = cut.flatten ++ left ∧
      chunking.detect_checked left = .ok none ∧ ∀ chunk ∈ cut, chunk ≠ [] := by
  induction buffer using chunks.induct chunking with
  | case1 buffer _ failed =>
    obtain ⟨found,ok⟩ := succeeds buffer
    rw [ok] at failed
    cases failed
  | case2 buffer idle =>
    refine ⟨[],buffer,?_,rfl,idle,by simp⟩
    rw [chunks]
    split <;> simp_all
  | case3 _ stop found chunk _ cut_ ih =>
    obtain ⟨cut,left,done,whole,idle,nonempty⟩ := ih
    obtain ⟨chunk',rest',cut',same,some_⟩ := detect_checked_some found
    rw [cut_] at cut'
    cases cut'
    refine ⟨chunk :: cut,left,?_,?_,idle,?_⟩
    · rw [chunks]
      split
      case h_1 failed => simp [found] at failed
      case h_2 idle' => simp [found] at idle'
      case h_3 stop' found' =>
        obtain rfl : stop = stop' := by simpa [found] using found'
        split
        case h_1 chunk' rest' cut' =>
          rw [cut_] at cut'
          cases cut'
          rw [done]
          rfl
        case h_2 none_ =>
          rw [cut_] at none_
          cases none_
    · rw [same,whole]
      simp
    · intro other mem
      rcases List.mem_cons.mp mem with rfl | mem
      · exact some_
      · exact nonempty other mem
  | case4 _ _ found none_ =>
    obtain ⟨_,_,cut,-⟩ := detect_checked_some found
    rw [none_] at cut
    cases cut

namespace SmoothState

def held (s : SmoothState) : List StreamEvent :=
  match s.current with
  | some part => [delta part s.buffer s.provider_metadata]
  | none => []

/-- Without a part nothing is buffered. -/
def Sound (s : SmoothState) : Prop := s.current = none → s.buffer = [] ∧ s.provider_metadata = none

structure Passes (s : SmoothState) (more : List StreamEvent) (next : SmoothState) : Prop where
  sound : next.Sound
  input : next.input = s.input
  done : next.done = s.done
  sent : ∃ new : List (StreamEvent × Bool), next.pending = s.pending ++ new.map (fun e => (.ok e.1,e.2)) ∧
    Same (new.map (·.1) ++ next.held) (s.held ++ more)

theorem flush_passes {s : SmoothState} (sound : s.Sound) : s.Passes [] s.flush ∧ s.flush.buffer = [] ∧
    s.flush.provider_metadata = none ∧ s.flush.current = s.current := by
  unfold flush
  split_ifs with bare
  · obtain ⟨text,data⟩ : s.buffer = [] ∧ s.provider_metadata = none := by simpa using bare
    exact ⟨⟨sound,rfl,rfl,[],by simp,by simpa using .refl _⟩,text,data,rfl⟩
  · cases current : s.current with
    | none =>
      obtain ⟨text,data⟩ := sound current
      simp [text,data] at bare
    | some part =>
      refine ⟨⟨?_,rfl,rfl,[(delta part s.buffer s.provider_metadata,false)],by simp,?_⟩,rfl,rfl,rfl⟩
      · intro none_
        simp at none_
      · intro rest
        simp [held,current]

theorem smooth_passes (succeeds : chunking.Succeeds) {s : SmoothState} (sound : s.Sound)
    (part : Kind × PartId) (text : String) (metadata : Option ProviderMetadata) :
    ∃ next, s.smooth chunking part text metadata = .ok next ∧ s.Passes [delta part text.toList metadata] next := by
  -- a delta of another part meets an empty buffer
  obtain ⟨f,flushed,before,input,done,new,pending,same⟩ : ∃ f : SmoothState,
      f = (if s.current = some part then s else s.flush) ∧ (f.current = some part ∨ f.buffer = [] ∧ f.provider_metadata = none) ∧
      f.input = s.input ∧ f.done = s.done ∧ ∃ new : List (StreamEvent × Bool),
        f.pending = s.pending ++ new.map (fun e => (.ok e.1,e.2)) ∧ Same (new.map (·.1) ++ f.held) s.held := by
    refine ⟨_,rfl,?_⟩
    split_ifs with current
    · exact ⟨.inl current,rfl,rfl,[],by simp,.refl _⟩
    · obtain ⟨⟨-,input,done,new,pending,same⟩,text,data,-⟩ := flush_passes sound
      exact ⟨.inr ⟨text,data⟩,input,done,new,pending,by simpa using same⟩
  obtain ⟨cut,left,done',whole,-,-⟩ := chunks_spec succeeds (f.buffer ++ text.toList)
  have smoothed : s.smooth chunking part text metadata = .ok { f with
      buffer := left
      current := some part
      provider_metadata := metadata.or f.provider_metadata
      pending := f.pending ++ cut.map fun chunk => (.ok (delta part chunk none),true) } := by
    rw [smooth,← flushed]
    simp only [done']
    rfl
  refine ⟨_,smoothed,?_⟩
  have joined : Same [delta part (f.buffer ++ text.toList) (metadata.or f.provider_metadata)]
      (f.held ++ [delta part text.toList metadata]) := by
    intro rest
    rcases before with current | ⟨text,data⟩
    · simp [held,current,join_join]
    · cases current : f.current with
      | none => simp [held,current,text,data]
      | some => simp [held,current,text,data]
  refine ⟨?_,input,done,new ++ cut.map fun chunk => (delta part chunk none,true),?_,?_⟩
  · intro none_
    cases none_
  · simp [pending,Function.comp_def]
  · have pieces := (same_chunks part cut left (metadata.or f.provider_metadata)).trans (whole ▸ joined)
    have sent : Same (new.map (·.1) ++ (cut.map (delta part · none) ++ [delta part left (metadata.or f.provider_metadata)]))
        (s.held ++ [delta part text.toList metadata]) := by
      refine ((Same.refl _).append pieces).trans ?_
      rw [← append_assoc]
      exact same.append (.refl _)
    simpa [held,Function.comp_def] using sent

theorem handle_passes (succeeds : chunking.Succeeds) {s : SmoothState} (sound : s.Sound)
    (event : StreamEvent) : ∃ next, s.handle chunking event = .ok next ∧ s.Passes [event] next := by
  cases shape : isDelta event with
  | some delta_ =>
    obtain ⟨part,text,metadata⟩ := delta_
    have handled : ∃ text' : String, text'.toList = text ∧
        s.handle chunking event = s.smooth chunking part text' metadata := by
      cases event <;> simp only [isDelta,reduceCtorEq,Option.some.injEq] at shape
      all_goals
        cases shape
        exact ⟨_,rfl,rfl⟩
    obtain ⟨text',rfl,handled⟩ := handled
    obtain ⟨next,done,passes⟩ := smooth_passes succeeds sound part text' metadata
    rw [delta_of_isDelta shape] at handled ⊢
    exact ⟨next,handled.trans done,passes⟩
  | none =>
    obtain ⟨⟨flushed,input,done,new,pending,same⟩,text,data,current⟩ := flush_passes sound
    have handled : s.handle chunking event = .ok { s.flush with pending := s.flush.pending ++ [(.ok event,false)] } := by
      cases event <;> first | rfl | cases shape
    refine ⟨_,handled,flushed,input,done,new ++ [(event,false)],by simp [pending],?_⟩
    have empty : Same s.flush.held [] := by
      intro rest
      cases part : s.flush.current <;> simp [held,part,text,data]
    have before : Same (new.map (·.1)) s.held := by
      intro rest
      have whole := same rest
      rw [foldr_append,empty rest] at whole
      simpa using whole
    have after := (before.append (Same.refl [event])).append empty
    simpa [held] using after

variable {chunking : Chunking} {delay : Option Nat} {cancelled : Nat → Bool}

/-- The stream ends, having sent `out`. -/
def Sends (chunking : Chunking) (delay : Option Nat) (cancelled : Nat → Bool) (s : SmoothState)
    (out : List (Except Error StreamEvent)) : Prop :=
  ∃ n, (s.rounds chunking delay cancelled n).2.round chunking delay cancelled = none ∧
    (s.rounds chunking delay cancelled n).1 = out

theorem Sends.later {s next : SmoothState} {event : Option (Except Error StreamEvent)} {out : List (Except Error StreamEvent)}
    (sends : next.Sends chunking delay cancelled out) (done : s.round chunking delay cancelled = some (event,next)) :
    s.Sends chunking delay cancelled (event.toList ++ out) := by
  obtain ⟨n,stops,all⟩ := sends
  refine ⟨n + 1,?_,?_⟩
  · simpa [rounds,done] using stops
  · simp [rounds,done,all]

theorem Sends.pending (never : ∀ k, cancelled k = false) (queue : List (Except Error StreamEvent × Bool)) :
    ∀ {s : SmoothState}, s.pending = queue → ∃ delay_pending pauses, ∀ out,
      Sends chunking delay cancelled { s with pending := [],delay_pending,pauses } out →
        s.Sends chunking delay cancelled (queue.map (·.1) ++ out) := by
  induction queue with
  | nil =>
    rintro ⟨_,_,_,_,pending,delay_pending,_,pauses⟩ rfl
    exact ⟨delay_pending,pauses,fun out sends => sends⟩
  | cons entry rest ih =>
    obtain ⟨event,delay_after⟩ := entry
    intro s queued
    have first : s.round chunking delay cancelled = some (some event,{ s with
        pending := rest
        delay_pending := delay_after
        pauses := if s.delay_pending && delay.isSome then s.pauses + 1 else s.pauses }) := by
      simp [round,queued,never]
    obtain ⟨delay_pending,pauses,sends⟩ := @ih { s with
      pending := rest
      delay_pending := delay_after
      pauses := if s.delay_pending && delay.isSome then s.pauses + 1 else s.pauses } rfl
    exact ⟨delay_pending,pauses,fun out after => (sends out after).later first⟩

theorem sends_input (succeeds : chunking.Succeeds) (never : ∀ k, cancelled k = false) (input : List StreamEvent) :
    ∀ {s : SmoothState}, s.Sound → s.pending = [] → s.input = input → s.done = false →
      ∃ out : List StreamEvent, s.Sends chunking delay cancelled (out.map .ok) ∧ Same out (s.held ++ input) := by
  induction input with
  | nil =>
    rintro ⟨input,buffer,current,metadata,queue,delaying,spent,count⟩ sound rfl rfl rfl
    let s : SmoothState := ⟨[],buffer,current,metadata,[],delaying,false,count⟩
    obtain ⟨⟨-,-,done,new,pending,same⟩,text,data,-⟩ := @flush_passes { s with done := true } sound
    have last : s.round chunking delay cancelled = some (none,flush { s with done := true }) := rfl
    obtain ⟨delay_pending,pauses,sends⟩ := @Sends.pending chunking delay cancelled never _
      (flush { s with done := true }) rfl
    have spent : Sends chunking delay cancelled
        { flush { s with done := true } with pending := [],delay_pending,pauses } [] :=
      ⟨0,by simp [rounds,round,done],rfl⟩
    refine ⟨new.map (·.1),?_,?_⟩
    · have all := (sends [] spent).later last
      rw [pending] at all
      simpa [s,Function.comp_def] using all
    · intro rest
      have whole := same rest
      cases part : (flush { s with done := true }).current with
      | none => simpa [held,part] using whole
      | some => simpa [held,part,text,data] using whole
  | cons event rest ih =>
    rintro ⟨input,buffer,current,metadata,_,delaying,_,count⟩ sound rfl rfl rfl
    let s : SmoothState := ⟨event :: rest,buffer,current,metadata,[],delaying,false,count⟩
    obtain ⟨next,handled,sound',input,done,new,pending,same⟩ := @handle_passes chunking succeeds { s with input := rest }
      sound event
    have first : s.round chunking delay cancelled = some (none,next) := by
      simp only [round,s,Bool.false_eq_true,if_false]
      rw [handled]
    obtain ⟨delay_pending,pauses,sends⟩ := @Sends.pending chunking delay cancelled never _ next rfl
    obtain ⟨out,later,alike⟩ := @ih { next with pending := [],delay_pending,pauses } sound' rfl input done
    refine ⟨new.map (·.1) ++ out,?_,?_⟩
    · have all := (sends _ later).later first
      rw [pending] at all
      simpa [s,Function.comp_def] using all
    · have whole : Same (new.map (·.1) ++ (held next ++ rest)) (s.held ++ [event] ++ rest) := by
        rw [← append_assoc]
        exact same.append (.refl rest)
      have all := ((Same.refl (new.map (·.1))).append alike).trans whole
      simpa using all

end SmoothState

/-- With a detector that succeeds and no cancellation, the transform sends all of the input and ends: merging adjacent
    deltas of a part gives the same sequence before and after. The loop over the buffer cuts off chunks, none of them
    empty, until no chunk is complete. -/
theorem smooth_stream_conserves (chunking : Chunking) (succeeds : chunking.Succeeds) (delay : Option Nat)
    (input : List StreamEvent) :
    (∃ out : List StreamEvent, (SmoothState.new input).Sends chunking delay (fun _ => false) (out.map .ok) ∧
      merged out = merged input) ∧
    ∀ buffer, ∃ cut left, chunks chunking buffer = .ok (cut,left) ∧ buffer = cut.flatten ++ left ∧
      chunking.detect_checked left = .ok none ∧ ∀ chunk ∈ cut, chunk ≠ [] := by
  refine ⟨?_,chunks_spec succeeds⟩
  obtain ⟨out,sends,same⟩ := @SmoothState.sends_input chunking delay (fun _ => false) succeeds (fun _ => rfl) input
    (.new input) (fun _ => ⟨rfl,rfl⟩) rfl rfl rfl
  exact ⟨out,sends,same []⟩

/-- Words that the provider cut anywhere come out as one text, with the metadata of its last delta. -/
theorem smooth_stream_conserves_words : ∃ out : List StreamEvent,
    (SmoothState.new [.TextStart "t" none,.TextDelta "t" "two wo" none,.TextDelta "t" "rds" (some []),.TextEnd "t" none]).Sends
      .Word (some 10) (fun _ => false) (out.map .ok) ∧
    merged out = [.TextStart "t" none,.TextDelta "t" "two words" (some []),.TextEnd "t" none] := by
  obtain ⟨out,sends,same⟩ := (smooth_stream_conserves .Word word_succeeds (some 10)
    [.TextStart "t" none,.TextDelta "t" "two wo" none,.TextDelta "t" "rds" (some []),.TextEnd "t" none]).1
  exact ⟨out,sends,same.trans (by decide)⟩

end Ferrin.StreamText.Smooth
