import Ferrin.Library.EventStream
import Ferrin.Library.Result
import Mathlib.Data.List.Infix

/-!
The server-sent events decoder. It is fed chunks of bytes and keeps the
unfinished line, a pending CR and the unfinished event between them. Over any
cut of a byte stream whose events stay within the size limit its outputs are the
events of the specification (`feedAll_eq_parse`), with reconnection times that
do not fit a 64-bit number of milliseconds forgotten.
-/
namespace Ferrin.Sse
open Ferrin.EventStream List Utf8
open Utf8 (decode)

structure SseEvent where
  event : Option (List Char)
  data : List Char
  id : Option (List Char)
  retry : Option Nat
  received_at : Option Nat
  deriving DecidableEq

inductive SseError where
  | EventTooLarge (limit : Nat)
  deriving DecidableEq

def DEFAULT_MAX_EVENT_BYTES : Nat := 16 * 1024 * 1024

/-- The decoder. Strings are lists of characters, and durations milliseconds. -/
structure SseDecoder where
  buffer : List UInt8
  data : List Char
  event : List Char
  last_event_id : List Char
  retry : Option Nat
  bom_checked : Bool
  pending_cr : Bool
  max_event_bytes : Nat
  deriving DecidableEq

def SseDecoder.new : SseDecoder where
  buffer := []
  data := []
  event := []
  last_event_id := []
  retry := none
  bom_checked := false
  pending_cr := false
  max_event_bytes := DEFAULT_MAX_EVENT_BYTES

def SseDecoder.with_max_event_bytes (d : SseDecoder) (max_event_bytes : Nat) : SseDecoder :=
  { d with max_event_bytes := max_event_bytes }

/-- The length in bytes of a string. -/
def len (text : List Char) : Nat := (text.map Char.utf8Size).sum

/-- `str::split_once(':')`. -/
def split_once_colon (text : List Char) : Option (List Char × List Char) :=
  match text.span (· ≠ ':') with
  | (field,_ :: value) => some (field,value)
  | (_,[]) => none

/-- `str::strip_prefix(' ')`, or the text itself. -/
def strip_space : List Char → List Char
  | ' ' :: value => value
  | value => value

/-- `str::parse::<u64>` on a string of ASCII digits. -/
def parse_u64 (digits : List Char) : Option Nat :=
  if decimal digits < 2 ^ 64 then some (decimal digits) else none

def SseDecoder.dispatch (d : SseDecoder) : SseDecoder × Option SseEvent :=
  if d.data = [] then ({ d with event := [] },none)
  else
    ({ d with data := [],event := [] },some {
      event := if d.event = [] then none else some d.event
      data := d.data.dropLast
      id := if d.last_event_id = [] then none else some d.last_event_id
      retry := d.retry
      received_at := none })

def SseDecoder.process_line (d : SseDecoder) (line : List UInt8) : SseDecoder × Option SseEvent :=
  match line with
  | [] => d.dispatch
  | first :: _ =>
    if first = 0x3A then (d,none)
    else
      let text := decode line
      let (field,value) := match split_once_colon text with
        | some (field,value) => (field,strip_space value)
        | none => (text,[])
      if field = "event".toList then ({ d with event := value },none)
      else if field = "data".toList then ({ d with data := d.data ++ value ++ ['\n'] },none)
      else if field = "id".toList then
        if '\x00' ∈ value then (d,none) else ({ d with last_event_id := value },none)
      else if field = "retry".toList ∧ value ≠ [] ∧ value.all Char.isDigit then
        ({ d with retry := parse_u64 value },none)
      else (d,none)

def BOM : List UInt8 := [0xEF,0xBB,0xBF]

/-- The body of the loop in `feed` from the check for a pending CR on. -/
def SseDecoder.feed_checked (d : SseDecoder) (byte : UInt8) : Except SseError (SseDecoder × Option SseEvent) :=
  if d.pending_cr ∧ byte = 10 then .ok ({ d with pending_cr := false },none)
  else
    let d := { d with pending_cr := false }
    if byte = 10 ∨ byte = 13 then
      .ok ({ d with pending_cr := byte = 13,buffer := [] }.process_line d.buffer)
    else
      let d := { d with buffer := d.buffer ++ [byte] }
      if d.buffer.length + len d.data > d.max_event_bytes then .error (.EventTooLarge d.max_event_bytes)
      else .ok (d,none)

/-- One round of the loop in `feed`. A byte order mark is resolved first; at most
    two of its bytes wait in the buffer. -/
def SseDecoder.feed_byte (d : SseDecoder) (byte : UInt8) : Except SseError (SseDecoder × Option SseEvent) :=
  if ¬ d.bom_checked then
    if BOM[d.buffer.length]? = some byte then
      if (d.buffer ++ [byte]).length = BOM.length then
        .ok ({ d with buffer := [],bom_checked := true },none)
      else .ok ({ d with buffer := d.buffer ++ [byte] },none)
    else { d with bom_checked := true }.feed_checked byte
  else d.feed_checked byte

def SseDecoder.feed (d : SseDecoder) : List UInt8 → Except SseError (SseDecoder × List SseEvent)
  | [] => .ok (d,[])
  | byte :: rest => do
    let (d,event) ← d.feed_byte byte
    let (d,events) ← d.feed rest
    return (d,event.toList ++ events)

/-- The outputs of `feed` over the chunks of a body, one after the other. -/
def SseDecoder.feedAll (d : SseDecoder) : List (List UInt8) → Except SseError (SseDecoder × List SseEvent)
  | [] => .ok (d,[])
  | chunk :: rest => do
    let (d,events) ← d.feed chunk
    let (d,later) ← d.feedAll rest
    return (d,events ++ later)

/-- `finish` discards the unfinished event. -/
def SseDecoder.finish (d : SseDecoder) : SseDecoder :=
  { d with buffer := [],data := [],event := [],pending_cr := false }

/-! ### One line -/

/-- What a reader of the specification holds when the decoder holds `d`. -/
def reader (d : SseDecoder) : Reader := ⟨d.data,d.event,d.last_event_id,d.retry⟩

/-- The reconnection times the decoder can hold. -/
def fits (n : Nat) : Option Nat := if n < 2 ^ 64 then some n else none

def sseEvent (e : Event) : SseEvent := ⟨e.eventType,e.data,e.lastEventId,e.reconnection,none⟩

/-- `d` with the parts that hold the event read so far replaced. -/
def withReader (d : SseDecoder) (r : Reader) : SseDecoder :=
  { d with data := r.data,event := r.eventType,last_event_id := r.lastEventId,retry := r.reconnection }

theorem dispatch_reads (d : SseDecoder) :
    d.dispatch = (withReader d (reader d).dispatch.1,(reader d).dispatch.2.map sseEvent) := by
  by_cases empty : d.data = []
  · simp [SseDecoder.dispatch,Reader.dispatch,reader,withReader,empty]
  · simp [SseDecoder.dispatch,Reader.dispatch,reader,withReader,empty,sseEvent,nonempty]
    exact ⟨rfl,rfl⟩

theorem fieldOf_eq (text : List Char) : fieldOf text =
    match split_once_colon text with
    | some (field,value) => (field,strip_space value)
    | none => (text,[]) := by
  unfold fieldOf split_once_colon
  rcases cut : text.span (· ≠ ':') with ⟨name,_ | ⟨_,value⟩⟩
  · have whole : text.takeWhile (· ≠ ':') = name ∧ text.dropWhile (· ≠ ':') = [] := by
      rw [span_eq_takeWhile_dropWhile] at cut
      exact ⟨congrArg Prod.fst cut,congrArg Prod.snd cut⟩
    have joined := takeWhile_append_dropWhile (p := (· ≠ ':')) (l := text)
    rw [whole.1,whole.2,append_nil] at joined
    simp [joined]
  · cases value with
    | nil => rfl
    | cons c =>
      by_cases space : c = ' '
      · subst space; rfl
      · simp [strip_space,space]

theorem process_line_reads (d : SseDecoder) (line : List UInt8) :
    d.process_line line = (withReader d ((reader d).line fits (decode line)).1,
      ((reader d).line fits (decode line)).2.map sseEvent) := by
  cases line with
  | nil => simpa [SseDecoder.process_line,Reader.line] using dispatch_reads d
  | cons first rest =>
    have notEmpty : decode (first :: rest) ≠ [] := by simp [decode_eq_nil]
    have unchanged : withReader d (reader d) = d := rfl
    by_cases colon : first = 0x3A
    · subst colon
      have text := decode_ascii [] rest (b := 0x3A) (by decide)
      simp only [nil_append,decode_nil] at text
      have head : (decode (0x3A :: rest)).head? = some ':' := by rw [text]; rfl
      simp [SseDecoder.process_line,Reader.line,notEmpty,head,unchanged]
    · simp only [SseDecoder.process_line,colon,if_false,Reader.line,notEmpty]
      by_cases head : (decode (first :: rest)).head? = some ':'
      · obtain ⟨value,text⟩ : ∃ value, decode (first :: rest) = ':' :: value := by
          cases text : decode (first :: rest) with
          | nil => exact absurd text notEmpty
          | cons c value => exact ⟨value,by simpa [text] using head⟩
        have cut : split_once_colon (decode (first :: rest)) = some ([],value) := by
          rw [text]; rfl
        simp [cut,head,unchanged]
      · simp only [head,if_false,fieldOf_eq]
        cases cut : split_once_colon (decode (first :: rest)) with
        | none => simp only [Reader.field]; split_ifs <;> simp_all [withReader,reader]
        | some => 
          simp only [Reader.field,parse_u64]
          split_ifs <;> simp_all [withReader,reader,fits]

/-- The bytes of every line, together with the data collected for its event when
    the line begins, stay within the limit. The unfinished last line counts. -/
def WithinLimit (max : Nat) : Reader → List (List UInt8) → Prop
  | _, [] => True
  | r, line :: rest =>
    (line = [] ∨ line.length + len r.data ≤ max) ∧ WithinLimit max (r.line some (decode line)).1 rest

theorem line_data (keep : Nat → Option Nat) {r r' : Reader} (same : r.data = r'.data) (line : List Char) :
    (r.line keep line).1.data = (r'.line some line).1.data := by
  unfold Reader.line Reader.dispatch Reader.field
  split_ifs <;> simp_all

variable {max : Nat} {d d₁ d' : SseDecoder} {byte : UInt8} {rest bytes buffer first : List UInt8}
  {event : Option SseEvent} {events : List SseEvent} {rows : List (List UInt8)}

theorem withinLimit_congr (rows : List (List UInt8)) : ∀ {r r' : Reader}, r.data = r'.data →
    (WithinLimit max r rows ↔ WithinLimit max r' rows) := by
  induction rows with
  | nil => intro r r' _; rfl
  | cons line _ ih =>
    intro r r' same
    simp only [WithinLimit,same,ih (line_data some same (decode line))]

theorem feed_append (before after : List UInt8) : ∀ d : SseDecoder, d.feed (before ++ after) = do
    let (d,events) ← d.feed before
    let (d,later) ← d.feed after
    return (d,events ++ later) := by
  induction before with
  | nil =>
    intro d
    cases fed : d.feed after with
    | error => simp [SseDecoder.feed,fed,bind,Except.bind]
    | ok => simp [SseDecoder.feed,fed,bind,Except.bind,pure,Except.pure]
  | cons _ _ ih =>
    intro d
    simp only [cons_append,SseDecoder.feed,ih,bind_assoc,pure_bind,append_assoc]

theorem feedAll_flatten (chunks : List (List UInt8)) : ∀ d : SseDecoder, d.feedAll chunks = d.feed chunks.flatten := by
  induction chunks with
  | nil => intro d; rfl
  | cons _ _ ih =>
    intro d
    simp only [SseDecoder.feedAll,flatten_cons,feed_append,ih]

/-- The lines that remain when `rest` is still to be fed to `d`. -/
def remaining (d : SseDecoder) (rest : List UInt8) : List (List UInt8) :=
  (linesFrom 13 10 d.pending_cr rest).modifyHead (d.buffer ++ ·)

/-- A decoder between two bytes, with a byte order mark already resolved. -/
structure Between (d : SseDecoder) : Prop where
  checked : d.bom_checked = true
  plain : 13 ∉ d.buffer ∧ 10 ∉ d.buffer
  fresh : d.pending_cr = true → d.buffer = []

/-- The decoder after the line in its buffer, which `byte` ends, is read. -/
def afterLine (d : SseDecoder) (byte : UInt8) : SseDecoder :=
  withReader { d with pending_cr := byte = 13,buffer := [] } ((reader d).line fits (decode d.buffer)).1

def afterByte (d : SseDecoder) (byte : UInt8) : SseDecoder :=
  { d with pending_cr := false,buffer := d.buffer ++ [byte] }

theorem feed_byte_cases (between : Between d) (byte : UInt8) :
    (d.pending_cr = true ∧ byte = 10 ∧ d.feed_byte byte = .ok ({ d with pending_cr := false },none)) ∨
    (¬ (d.pending_cr = true ∧ byte = 10) ∧ (byte = 10 ∨ byte = 13) ∧ d.feed_byte byte =
      .ok (afterLine d byte,((reader d).line fits (decode d.buffer)).2.map sseEvent)) ∨
    (¬ (byte = 10 ∨ byte = 13) ∧ d.feed_byte byte =
      if (d.buffer ++ [byte]).length + len d.data > d.max_event_bytes then .error (.EventTooLarge d.max_event_bytes)
      else .ok (afterByte d byte,none)) := by
  have checked : d.feed_byte byte = d.feed_checked byte := by
    simp [SseDecoder.feed_byte,between.checked]
  rw [checked,SseDecoder.feed_checked]
  by_cases skip : d.pending_cr = true ∧ byte = 10
  · exact .inl ⟨skip.1,skip.2,by rw [if_pos skip]⟩
  · by_cases ends : byte = 10 ∨ byte = 13
    · refine .inr (.inl ⟨skip,ends,?_⟩)
      rw [if_neg skip,if_pos ends,process_line_reads]
      rfl
    · refine .inr (.inr ⟨ends,?_⟩)
      rw [if_neg skip,if_neg ends]
      rfl

theorem remaining_skip (pending : d.pending_cr = true) (rest : List UInt8) :
    remaining d (10 :: rest) = remaining { d with pending_cr := false } rest := by
  simp [remaining,pending,linesFrom]

theorem remaining_end (kept : ¬ (d.pending_cr = true ∧ byte = 10))
    (ends : byte = 10 ∨ byte = 13) (rest : List UInt8) :
    remaining d (byte :: rest) = d.buffer :: remaining (afterLine d byte) rest := by
  have later : remaining (afterLine d byte) rest = linesFrom 13 10 (byte = 13) rest :=
    congrFun modifyHead_id _
  rw [later]
  rcases ends with rfl | rfl
  · have notPending : d.pending_cr = false := by simpa using kept
    simp [remaining,notPending,linesFrom]
  · cases pending : d.pending_cr <;> simp [remaining,linesFrom]

theorem remaining_byte (inner : ¬ (byte = 10 ∨ byte = 13)) (rest : List UInt8) :
    remaining d (byte :: rest) = remaining (afterByte d byte) rest := by
  rw [not_or] at inner
  simp only [remaining,linesFrom,inner,if_false,modifyHead_modifyHead]
  congr 1
  funext line
  simp [afterByte]

theorem remaining_head (d : SseDecoder) (rest : List UInt8) :
    ∃ more lines, remaining d rest = (d.buffer ++ more) :: lines := by
  cases cut : linesFrom 13 10 d.pending_cr rest with
  | nil => exact absurd cut (linesFrom_ne_nil _ _ _ _)
  | cons line lines => exact ⟨line,lines,by simp [remaining,cut]⟩

theorem feed_cons (now : d.feed_byte byte = .ok (d₁,event)) (later : d₁.feed rest = .ok (d',events)) :
    d.feed (byte :: rest) = .ok (d',event.toList ++ events) := by
  simp only [SseDecoder.feed,now,later,bind,Except.bind,pure,Except.pure]

theorem feed_ok_cons
    (now : d.feed_byte byte = .ok (d₁,event)) : (d.feed (byte :: rest)).isOk = (d₁.feed rest).isOk := by
  cases later : d₁.feed rest with
  | error => simp only [SseDecoder.feed,now,later,bind,Except.bind]
  | ok => rw [feed_cons now later]; rfl

theorem feed_refused {e : SseError} (now : d.feed_byte byte = .error e) : d.feed (byte :: rest) = .error e := by
  simp only [SseDecoder.feed,now,bind,Except.bind]

theorem feed_cons_inv
    (fed : d.feed (byte :: rest) = .ok (d',events)) : ∃ d₁ event later, d.feed_byte byte = .ok (d₁,event) ∧
      d₁.feed rest = .ok (d',later) ∧ events = event.toList ++ later := by
  rw [SseDecoder.feed] at fed
  obtain ⟨⟨d₁,event⟩,now,fed⟩ := Result.bind_ok.mp fed
  obtain ⟨⟨_,later⟩,next,fed⟩ := Result.bind_ok.mp fed
  cases fed
  exact ⟨d₁,event,later,now,next,rfl⟩

theorem between_afterLine (between : Between d) (byte : UInt8) : Between (afterLine d byte) :=
  ⟨between.checked,by simp [afterLine,withReader],by simp [afterLine,withReader]⟩

theorem between_afterByte (between : Between d) (inner : ¬ (byte = 10 ∨ byte = 13)) : Between (afterByte d byte) := by
  rw [not_or] at inner
  refine ⟨between.checked,?_,by simp [afterByte]⟩
  simp [afterByte,between.plain,Ne.symm inner.1,Ne.symm inner.2]

theorem feed_events (rest : List UInt8) : ∀ {d d' : SseDecoder} {events : List SseEvent}, Between d →
    d.feed rest = .ok (d',events) →
      events = ((reader d).events fits ((remaining d rest).dropLast.map decode)).map sseEvent := by
  induction rest with
  | nil =>
    intro d d' events _ fed
    cases fed
    simp [remaining,linesFrom,Reader.events]
  | cons byte rest ih =>
    intro d d' events between fed
    obtain ⟨_,_,_,now,next,rfl⟩ := feed_cons_inv fed
    rcases feed_byte_cases between byte with ⟨pending,rfl,fed⟩ | ⟨kept,ends,fed⟩ | ⟨inner,fed⟩
    · cases now.symm.trans fed
      rw [remaining_skip pending]
      exact ih (d := { d with pending_cr := false }) ⟨between.checked,between.plain,by simp⟩ next
    · cases now.symm.trans fed
      obtain ⟨_,_,others⟩ := remaining_head (afterLine d byte) rest
      rw [remaining_end kept ends,ih (between_afterLine between byte) next,
        dropLast_cons_of_ne_nil (by simp [others]),map_cons,Reader.events,map_append]
      cases ((reader d).line fits (decode d.buffer)).2 <;> rfl
    · rw [now] at fed
      split_ifs at fed
      cases fed
      rw [remaining_byte inner]
      exact ih (between_afterByte between inner) next

/-- No remaining line exceeds the limit. A first line to which no byte is added is not measured again. -/
def Fitting (d : SseDecoder) : List (List UInt8) → Prop
  | [] => True
  | first :: rows => (first = d.buffer ∨ first.length + len d.data ≤ d.max_event_bytes) ∧
    WithinLimit d.max_event_bytes ((reader d).line some (decode first)).1 rows

theorem fitting_of_empty (empty : d.buffer = []) :
    Fitting d rows ↔ WithinLimit d.max_event_bytes (reader d) rows := by
  cases rows with
  | nil => rfl
  | cons => rw [Fitting,WithinLimit,empty]; rfl

theorem feed_ok_iff (rest : List UInt8) : ∀ {d : SseDecoder}, Between d →
    ((d.feed rest).isOk ↔ Fitting d (remaining d rest)) := by
  induction rest with
  | nil =>
    intro d _
    simp [SseDecoder.feed,Except.isOk,Except.toBool,remaining,linesFrom,Fitting,WithinLimit]
  | cons byte rest ih =>
    intro d between
    rcases feed_byte_cases between byte with ⟨pending,rfl,fed⟩ | ⟨kept,ends,fed⟩ | ⟨inner,fed⟩
    · rw [remaining_skip pending,feed_ok_cons fed]
      exact ih (d := { d with pending_cr := false }) ⟨between.checked,between.plain,by simp⟩
    · rw [remaining_end kept ends,feed_ok_cons fed,ih (between_afterLine between byte),fitting_of_empty rfl,Fitting,
        and_iff_right (.inl rfl)]
      exact withinLimit_congr _ (line_data fits rfl _)
    · obtain ⟨more,_,others⟩ := remaining_head (afterByte d byte) rest
      have longer : (afterByte d byte).buffer ++ more ≠ d.buffer := by
        intro same
        simpa [afterByte] using congrArg List.length same
      rw [remaining_byte inner]
      split_ifs at fed with excess
      · have refused : (d.feed (byte :: rest)).isOk = false := by
          rw [feed_refused fed]
          rfl
        have size : ¬ ((afterByte d byte).buffer ++ more).length + len d.data ≤ d.max_event_bytes := by
          have whole : (d.buffer ++ [byte] ++ more).length = (d.buffer ++ [byte]).length + more.length := length_append
          simp only [afterByte] at whole ⊢
          omega
        rw [refused,others,Fitting]
        exact ⟨fun ok => absurd ok (by decide),fun fit => absurd (fit.1.resolve_left longer) size⟩
      · have roomy : (afterByte d byte).buffer.length + len d.data ≤ d.max_event_bytes := Nat.not_lt.mp excess
        rw [feed_ok_cons fed,ih (between_afterByte between inner),others,Fitting,Fitting]
        refine and_congr ⟨?_,fun fit => .inr (fit.resolve_left longer)⟩ Iff.rfl
        rintro (same | fit)
        · rw [same]
          exact .inr roomy
        · exact .inr fit

theorem feed_resolved (between : Between d)
    (start : reader d = Reader.start) (rows : remaining d rest = lines 13 10 (body bytes))
    (fed : d.feed rest = .ok (d',events)) : events = (parse fits bytes).map sseEvent := by
  rw [feed_events rest between fed,rows,start,parse,lines_decode,map_dropLast]

theorem feed_unmarked (other : BOM[d.buffer.length]? ≠ some byte) (rest : List UInt8) :
    d.feed (byte :: rest) = { d with bom_checked := true }.feed (byte :: rest) := by
  have same : d.feed_byte byte = { d with bom_checked := true }.feed_byte byte := by
    cases checked : d.bom_checked with
    | false => simp [SseDecoder.feed_byte,checked,other]
    | true =>
      have unchanged : { d with bom_checked := true } = d := by rw [← checked]
      rw [unchanged]
  simp only [SseDecoder.feed,same]

/-- A decoder that has seen nothing but the beginning of a byte order mark. -/
structure Marking (d : SseDecoder) : Prop where
  unchecked : d.bom_checked = false
  calm : d.pending_cr = false
  start : reader d = Reader.start
  short : d.buffer.length < BOM.length
  mark : d.buffer <+: BOM

theorem not_mem_of_mark (mark : buffer <+: BOM) : 13 ∉ buffer ∧ 10 ∉ buffer :=
  ⟨fun m => absurd (mark.subset m) (by decide),fun m => absurd (mark.subset m) (by decide)⟩

theorem mark_snoc (mark : buffer <+: BOM) (next : BOM[buffer.length]? = some byte) : buffer ++ [byte] <+: BOM := by
  obtain ⟨inside,value⟩ := List.getElem?_eq_some_iff.mp next
  have taken : buffer ++ [byte] = BOM.take (buffer.length + 1) := by
    rw [← value,← take_append_getElem inside,← List.prefix_iff_eq_take.mp mark]
  exact taken ▸ take_prefix _ _

theorem not_prefix_unmarked (other : BOM[buffer.length]? ≠ some byte) (short : buffer.length < BOM.length) :
    ¬ byteOrderMark.isPrefixOf (buffer ++ byte :: rest) := by
  intro long
  obtain ⟨more,whole⟩ := List.isPrefixOf_iff_prefix.mp long
  apply other
  have at_end : (BOM ++ more)[buffer.length]? = (buffer ++ byte :: rest)[buffer.length]? :=
    congrArg (·[buffer.length]?) whole
  simpa [getElem?_append_left short] using at_end

/-- The lines without a first one that is only the beginning of a byte order mark. -/
def unheld : List (List UInt8) → List (List UInt8)
  | [] => []
  | first :: rest => if first.isPrefixOf BOM then rest else first :: rest

/-- The lines of the bytes that the decoder measures. The beginning of a byte order
    mark is held back, and a line that ends there is not measured. -/
def measured (bytes : List UInt8) : List (List UInt8) :=
  if byteOrderMark.isPrefixOf bytes then lines 13 10 (bytes.drop 3) else unheld (lines 13 10 bytes)

theorem line_of_mark (mark : first <+: BOM) (keep : Nat → Option Nat) :
    Reader.start.line keep (decode first) = (Reader.start,none) := by
  have known : first ∈ BOM.inits := (mem_inits first BOM).mpr mark
  have texts : ∀ line ∈ BOM.inits, decode line = [] ∨ decode line = ['\uFFFD'] ∨
      decode line = ['\uFFFD','\uFFFD'] ∨ decode line = ['\uFEFF'] := by
    decide
  rcases texts first known with text | text | text | text <;> rw [text] <;> rfl

theorem unheld_within (within : WithinLimit max Reader.start rows) : WithinLimit max Reader.start (unheld rows) := by
  cases rows with
  | nil => trivial
  | cons =>
    rw [unheld]
    split_ifs with held
    · have later := within.2
      rwa [line_of_mark ( List.isPrefixOf_iff_prefix.mp held)] at later
    · exact within

theorem measured_within
    (within : WithinLimit max Reader.start (lines 13 10 (body bytes))) : WithinLimit max Reader.start (measured bytes) := by
  rw [body] at within
  rw [measured]
  split_ifs at within ⊢ with mark
  · exact within
  · exact unheld_within within

theorem fitting_unheld (start : reader d = Reader.start) (held : first.isPrefixOf BOM ↔ first = d.buffer) :
    Fitting d (first :: rows) ↔ WithinLimit d.max_event_bytes Reader.start (unheld (first :: rows)) := by
  have data : len d.data = 0 := by
    rw [show d.data = [] from congrArg Reader.data start]
    rfl
  rw [Fitting,unheld,start,data]
  by_cases mark : first.isPrefixOf BOM
  · rw [if_pos mark,line_of_mark ( List.isPrefixOf_iff_prefix.mp mark),and_iff_right (.inl (held.mp mark))]
  · have filled : first ≠ [] := by
      rintro rfl
      exact mark rfl
    have other : first ≠ d.buffer := fun same => mark (held.mpr same)
    rw [if_neg mark,WithinLimit]
    simp [filled,other,Reader.start,len]

/-- What feeding a fresh decoder comes to: it is refused when a measured line
    exceeds the limit, and otherwise reads the body. -/
theorem feed_marking (rest : List UInt8) : ∀ d : SseDecoder, Marking d →
    ((d.feed rest).isOk ↔ WithinLimit d.max_event_bytes Reader.start (measured (d.buffer ++ rest))) ∧
      ∀ {d' events}, d.feed rest = .ok (d',events) → events = (parse fits (d.buffer ++ rest)).map sseEvent := by
  induction rest with
  | nil =>
    intro d marking
    have short : ¬ byteOrderMark.isPrefixOf d.buffer := by
      intro long
      exact absurd marking.short (Nat.not_lt.mpr ( List.isPrefixOf_iff_prefix.mp long).length_le)
    have line := linesFrom_append d.buffer [] (not_mem_of_mark marking.mark)
    simp only [append_nil,linesFrom,modifyHead_cons] at line
    rw [append_nil]
    constructor
    · rw [measured,if_neg short,lines,line,unheld,if_pos ( List.isPrefixOf_iff_prefix.mpr marking.mark)]
      exact ⟨fun _ => trivial,fun _ => rfl⟩
    · intro d' events fed
      cases fed
      rw [parse,lines_decode,body,if_neg short,lines,line]
      rfl
  | cons byte rest ih =>
    intro d marking
    have split : d.buffer ++ byte :: rest = d.buffer ++ [byte] ++ rest := by simp
    by_cases next : BOM[d.buffer.length]? = some byte
    · by_cases full : (d.buffer ++ [byte]).length = BOM.length
      · have whole : d.buffer ++ [byte] = BOM := (mark_snoc marking.mark next).eq_of_length full
        have fed : d.feed_byte byte = .ok ({ d with buffer := [],bom_checked := true },none) := by
          rw [SseDecoder.feed_byte,if_pos (by simp [marking.unchecked]),if_pos next,if_pos full]
        have mark : byteOrderMark.isPrefixOf (BOM ++ rest) :=
          List.isPrefixOf_iff_prefix.mpr (prefix_append BOM rest)
        have rows : remaining { d with buffer := [],bom_checked := true } rest = lines 13 10 rest := by
          rw [remaining,marking.calm]
          exact congrFun modifyHead_id _
        have between : Between { d with buffer := [],bom_checked := true } := ⟨rfl,by simp,by simp⟩
        rw [split,whole]
        constructor
        · rw [feed_ok_cons fed,feed_ok_iff rest between,fitting_of_empty rfl,measured,if_pos mark,rows]
          exact iff_of_eq (congrArg (fun r => WithinLimit d.max_event_bytes r (lines 13 10 rest)) marking.start)
        · intro d' events done
          obtain ⟨d₁,event,later,now,next,rfl⟩ := feed_cons_inv done
          cases now.symm.trans fed
          refine feed_resolved between marking.start ?_ next
          rw [rows,body,if_pos mark]
          rfl
      · have fed : d.feed_byte byte = .ok ({ d with buffer := d.buffer ++ [byte] },none) := by
          rw [SseDecoder.feed_byte,if_pos (by simp [marking.unchecked]),if_pos next,if_neg full]
        have longer := mark_snoc marking.mark next
        have still : Marking { d with buffer := d.buffer ++ [byte] } :=
          ⟨marking.unchecked,marking.calm,marking.start,lt_of_le_of_ne longer.length_le full,longer⟩
        rw [split,feed_ok_cons fed]
        refine ⟨(ih _ still).1,?_⟩
        intro d' events done
        obtain ⟨_,_,_,now,next,rfl⟩ := feed_cons_inv done
        cases now.symm.trans fed
        exact (ih _ still).2 next
    · have whole : ¬ byteOrderMark.isPrefixOf (d.buffer ++ byte :: rest) := not_prefix_unmarked next marking.short
      have plain := not_mem_of_mark marking.mark
      have rows : remaining { d with bom_checked := true } (byte :: rest) = lines 13 10 (d.buffer ++ byte :: rest) := by
        rw [lines,linesFrom_append _ _ plain,remaining,marking.calm]
      have between : Between { d with bom_checked := true } := by
        refine ⟨rfl,plain,fun pending => ?_⟩
        exact absurd (marking.calm.symm.trans pending) (by decide)
      rw [feed_unmarked next]
      constructor
      · rw [feed_ok_iff _ between,measured,if_neg whole,← rows]
        by_cases ends : byte = 10 ∨ byte = 13
        · have kept : ¬ (d.pending_cr = true ∧ byte = 10) := by simp [marking.calm]
          rw [remaining_end (d := { d with bom_checked := true }) kept ends]
          refine fitting_unheld marking.start ⟨fun _ => rfl,fun _ => ?_⟩
          exact List.isPrefixOf_iff_prefix.mpr marking.mark
        · obtain ⟨_,_,cut⟩ := remaining_head (afterByte { d with bom_checked := true } byte) rest
          rw [remaining_byte ends,cut]
          refine fitting_unheld marking.start ⟨fun mark => ?_,fun same => ?_⟩
          · obtain ⟨_,whole⟩ := List.isPrefixOf_iff_prefix.mp mark
            refine absurd ?_ next
            rw [← whole]
            simp [afterByte]
          · simpa [afterByte] using congrArg List.length same
      · intro d' events done
        refine feed_resolved between marking.start ?_ done
        rw [rows,body,if_neg whole]

theorem fresh_marking (max : Nat) : Marking (SseDecoder.new.with_max_event_bytes max) :=
  ⟨rfl,rfl,rfl,Nat.zero_lt_succ 2, nil_prefix⟩

theorem accepted_iff (max : Nat) (bytes : List UInt8) :
    ((SseDecoder.new.with_max_event_bytes max).feed bytes).isOk ↔ WithinLimit max Reader.start (measured bytes) :=
  (feed_marking bytes _ (fresh_marking max)).1

theorem accepted_reads (fed : (SseDecoder.new.with_max_event_bytes max).feed bytes = .ok (d',events)) :
    events = (parse fits bytes).map sseEvent :=
  (feed_marking bytes _ (fresh_marking max)).2 fed

instance decidableWithinLimit (max : Nat) : ∀ (rows : List (List UInt8)) (r : Reader), Decidable (WithinLimit max r rows)
  | [], _ => .isTrue trivial
  | line :: rest, r =>
    have := decidableWithinLimit max rest (r.line some (decode line)).1
    inferInstanceAs (Decidable (_ ∧ _))

/-- The outputs of the decoder over the chunks of a body whose events stay
    within the limit are the events of the body, however it is cut. A
    reconnection time that does not fit 64 bits is forgotten. -/
theorem feedAll_eq_parse (max : Nat) (bytes : List UInt8)
    (within : WithinLimit max Reader.start (lines 13 10 (body bytes))) (chunks : List (List UInt8))
    (cut : chunks.flatten = bytes) :
    ((SseDecoder.new.with_max_event_bytes max).feedAll chunks).map Prod.snd =
      .ok ((parse fits bytes).map sseEvent) := by
  obtain ⟨⟨d',events⟩,fed⟩ := Result.exists_ok ((accepted_iff max bytes).mpr (measured_within within))
  rw [feedAll_flatten,cut,fed]
  exact congrArg Except.ok (accepted_reads fed)

def ascii (text : String) : List UInt8 := text.toList.map fun c => c.toNat.toUInt8

/-- A body cut inside its byte order mark, inside a character and inside a CR LF. -/
theorem feedAll_cut_everywhere :
    ((SseDecoder.new.with_max_event_bytes 16).feedAll
      [[0xEF,0xBB],[0xBF] ++ ascii "data: " ++ [0xC3],[0xA9,13],[10,13,10] ++ ascii "d"]).map Prod.snd =
      .ok [⟨none,['é'],none,none,none⟩] :=
  feedAll_eq_parse 16 ([0xEF,0xBB,0xBF] ++ ascii "data: " ++ [0xC3,0xA9] ++ ascii "\r\n\r\nd") (by decide) _
    (by decide)

def longRetry : List UInt8 := ascii "retry:18446744073709551616\ndata\n\n"

/-- The event that follows a reconnection time of 2 ^ 64 carries none. -/
theorem feedAll_forgets_retry :
    WithinLimit DEFAULT_MAX_EVENT_BYTES Reader.start (lines 13 10 (body longRetry)) ∧
      (SseDecoder.new.feedAll [longRetry]).map Prod.snd ≠ .ok ((parse some longRetry).map sseEvent) := by
  decide

end Ferrin.Sse
