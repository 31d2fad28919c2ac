import Ferrin.Library.Utf8

/-!
The event streams of the WHATWG specification: a byte stream is decoded as
UTF-8 without its byte order mark, cut into lines, and the lines are read one
after the other. Reading stops at the last line end, so an event that is not
closed by an empty line is never dispatched.
-/
namespace Ferrin.EventStream
open List Utf8

section
variable {α : Type} [DecidableEq α]

/-- The lines of a text whose lines end with CR, LF or CR LF, the unfinished
    last line included. An LF right after a CR ends no further line. -/
def linesFrom (cr lf : α) : Bool → List α → List (List α)
  | _, [] => [[]]
  | afterCr, a :: rest =>
    if a = lf then
      if afterCr then linesFrom cr lf false rest else [] :: linesFrom cr lf false rest
    else if a = cr then [] :: linesFrom cr lf true rest
    else (linesFrom cr lf false rest).modifyHead (a :: ·)

def lines (cr lf : α) (text : List α) : List (List α) := linesFrom cr lf false text

theorem linesFrom_ne_nil (cr lf : α) (text : List α) : ∀ afterCr, linesFrom cr lf afterCr text ≠ [] := by
  induction text with
  | nil => simp [linesFrom]
  | cons _ _ ih =>
    intro afterCr
    unfold linesFrom
    split_ifs
    · exact ih false
    · simp
    · simp
    · rw [ne_eq,modifyHead_eq_nil_iff]
      exact ih false

theorem linesFrom_cr {cr lf : α} {text : List α} (other : text.head? ≠ some lf) :
    linesFrom cr lf true text = linesFrom cr lf false text := by
  cases text with
  | nil => rfl
  | cons a =>
    have differs : a ≠ lf := fun same => other (by rw [same]; rfl)
    simp only [linesFrom,differs,if_false]

theorem linesFrom_append {cr lf : α} (before text : List α) (plain : cr ∉ before ∧ lf ∉ before) :
    linesFrom cr lf false (before ++ text) = (linesFrom cr lf false text).modifyHead (before ++ ·) := by
  induction before with
  | nil => exact (congrFun modifyHead_id _).symm
  | cons a _ ih =>
    have notLf : a ≠ lf := fun same => plain.2 (same ▸ mem_cons_self)
    have notCr : a ≠ cr := fun same => plain.1 (same ▸ mem_cons_self)
    have tail := ih ⟨fun m => plain.1 (mem_cons_of_mem _ m),fun m => plain.2 (mem_cons_of_mem _ m)⟩
    simp only [cons_append,linesFrom,notLf,notCr,if_false,tail,modifyHead_modifyHead]
    rfl

end

/-- What a reader keeps between lines. -/
structure Reader where
  data : List Char
  eventType : List Char
  lastEventId : List Char
  reconnection : Option Nat

def Reader.start : Reader := ⟨[],[],[],none⟩

structure Event where
  eventType : Option (List Char)
  data : List Char
  lastEventId : Option (List Char)
  reconnection : Option Nat
  deriving DecidableEq

def nonempty (text : List Char) : Option (List Char) := if text = [] then none else some text

def fieldOf (line : List Char) : List Char × List Char :=
  match line.span (· ≠ ':') with
  | (name,_ :: ' ' :: value) => (name,value)
  | (name,_ :: value) => (name,value)
  | (name,[]) => (name,[])

/-- The base-ten value of a string of ASCII digits. -/
def decimal (digits : List Char) : Nat := digits.foldl (fun n c => 10 * n + (c.toNat - '0'.toNat)) 0

/-- The effect of a field. `keep` is what the reader holds of a reconnection
    time; the specification keeps every time (`keep = some`). -/
def Reader.field (keep : Nat → Option Nat) (r : Reader) (name value : List Char) : Reader :=
  if name = "event".toList then { r with eventType := value }
  else if name = "data".toList then { r with data := r.data ++ value ++ ['\n'] }
  else if name = "id".toList then
    if '\x00' ∈ value then r else { r with lastEventId := value }
  else if name = "retry".toList then
    if value ≠ [] ∧ value.all Char.isDigit then { r with reconnection := keep (decimal value) } else r
  else r

def Reader.dispatch (r : Reader) : Reader × Option Event :=
  if r.data = [] then ({ r with eventType := [] },none)
  else ({ r with data := [],eventType := [] },
    some ⟨nonempty r.eventType,r.data.dropLast,nonempty r.lastEventId,r.reconnection⟩)

def Reader.line (keep : Nat → Option Nat) (r : Reader) (line : List Char) : Reader × Option Event :=
  if line = [] then r.dispatch
  else if line.head? = some ':' then (r,none)
  else (r.field keep (fieldOf line).1 (fieldOf line).2,none)

def Reader.events (keep : Nat → Option Nat) : Reader → List (List Char) → List Event
  | _, [] => []
  | r, line :: rest => (r.line keep line).2.toList ++ ((r.line keep line).1).events keep rest

def byteOrderMark : List UInt8 := [0xEF,0xBB,0xBF]

def body (bytes : List UInt8) : List UInt8 :=
  if byteOrderMark.isPrefixOf bytes then bytes.drop 3 else bytes

def parse (keep : Nat → Option Nat) (bytes : List UInt8) : List Event :=
  Reader.start.events keep (lines '\r' '\n' (Utf8.decode (body bytes))).dropLast

theorem control_cr : Utf8.Control '\r' := ⟨by decide,by decide⟩
theorem control_lf : Utf8.Control '\n' := ⟨by decide,by decide⟩

theorem step_plain {state : Option Utf8.Pending} {b : UInt8} (notCr : b ≠ 13) (notLf : b ≠ 10) :
    '\r' ∉ (Utf8.step state b.toNat).2 ∧ '\n' ∉ (Utf8.step state b.toNat).2 := by
  have own : ∀ {c : Char}, Utf8.Control c → c ∈ (step state b.toNat).2 → b.toNat = c.toNat := by
    intro c control mem
    obtain ⟨ascii,same⟩ := step_control control mem
    rw [← same,toNat_ascii ascii]
  constructor
  · intro mem
    exact notCr (UInt8.toNat_inj.mp (own control_cr mem))
  · intro mem
    exact notLf (UInt8.toNat_inj.mp (own control_lf mem))

theorem not_head_lf {b : UInt8} {rest : List UInt8} (notLf : b ≠ 10) :
    (Utf8.decodeFrom none (b :: rest)).head? ≠ some '\n' := by
  intro head
  rcases out : (step none b.toNat).2 with _ | ⟨c,_⟩
  · rw [decodeFrom,out,nil_append] at head
    rcases next : (step none b.toNat).1 with _ | p
    · exact first_progress next out
    · rw [next] at head
      exact head_pending rest p _ head control_lf
  · rw [decodeFrom,out] at head
    have same : c = '\n' := by simpa using head
    have mem : '\n' ∈ (step none b.toNat).2 := by rw [out,same]; exact mem_cons_self
    obtain ⟨ascii,value⟩ := step_control control_lf mem
    have toNat : b.toNat = 10 := by
      rw [← toNat_ascii ascii,value]
      rfl
    exact notLf (UInt8.toNat_inj.mp toNat)

theorem linesFrom_decode (bytes : List UInt8) : ∀ (state : Option Utf8.Pending) (afterCr : Bool),
    (afterCr = true → state = none) → ∃ line more, linesFrom 13 10 afterCr bytes = line :: more ∧
      linesFrom '\r' '\n' afterCr (Utf8.decodeFrom state bytes) =
        Utf8.decodeFrom state line :: more.map Utf8.decode := by
  induction bytes with
  | nil =>
    intro state afterCr fresh
    refine ⟨[],[],rfl,?_⟩
    cases state with
    | none => rfl
    | some =>
      cases afterCr with
      | true => cases fresh rfl
      | false => rfl
  | cons b rest ih =>
    intro state afterCr fresh
    have flushed : '\r' ∉ flush state ∧ '\n' ∉ flush state :=
      ⟨control_cr.not_mem_flush state,control_lf.not_mem_flush state⟩
    by_cases isLf : b = 10
    · subst isLf
      obtain ⟨line,more,bytesLines,textLines⟩ := ih none false (by simp)
      have read : decodeFrom state (10 :: rest) = flush state ++ '\n' :: decodeFrom none rest := by
        simp [decodeFrom,step_ascii]
      cases afterCr with
      | true =>
        cases fresh rfl
        refine ⟨line,more,by simp [linesFrom,bytesLines],?_⟩
        rw [read]
        simpa [flush,linesFrom] using textLines
      | false =>
        refine ⟨[],line :: more,by simp [linesFrom,bytesLines],?_⟩
        rw [read,linesFrom_append _ _ flushed]
        simp [linesFrom,textLines,decodeFrom,decode]
    · by_cases isCr : b = 13
      · subst isCr
        obtain ⟨line,more,bytesLines,textLines⟩ := ih none true (by simp)
        refine ⟨[],line :: more,by simp [linesFrom,bytesLines],?_⟩
        have read : decodeFrom state (13 :: rest) =
            flush state ++ '\r' :: decodeFrom none rest := by
          simp [decodeFrom,step_ascii]
        have text : linesFrom '\r' '\n' false ('\r' :: decodeFrom none rest) =
            [] :: decodeFrom none line :: more.map decode := by
          simp [linesFrom,textLines]
        cases afterCr with
        | true =>
          cases fresh rfl
          rw [read]
          simpa [flush,linesFrom,decodeFrom,decode] using text
        | false =>
          rw [read,linesFrom_append _ _ flushed,text]
          simp [decodeFrom,decode]
      · obtain ⟨line,more,bytesLines,textLines⟩ := ih (step state b.toNat).1 false (by simp)
        refine ⟨b :: line,more,by simp [linesFrom,isLf,isCr,bytesLines],?_⟩
        have continued : linesFrom '\r' '\n' afterCr (decodeFrom state (b :: rest)) =
            linesFrom '\r' '\n' false (decodeFrom state (b :: rest)) := by
          cases afterCr with
          | false => rfl
          | true =>
            cases fresh rfl
            apply linesFrom_cr
            intro head
            exact not_head_lf isLf head
        rw [continued,decodeFrom,linesFrom_append _ _ (step_plain isCr isLf),textLines]
        simp [decodeFrom]

theorem lines_decode (bytes : List UInt8) :
    lines '\r' '\n' (Utf8.decode bytes) = (lines 13 10 bytes).map Utf8.decode := by
  obtain ⟨_,_,bytesLines,textLines⟩ := linesFrom_decode bytes none false (by simp)
  simp only [lines,decode,bytesLines,textLines,map_cons]

end Ferrin.EventStream
