import Ferrin.Library.JsonText
import Mathlib

/-!
The repair of truncated JSON. The machine keeps positions in bytes; what it
slices at a position that is no character boundary panics, which is `none` here.
-/
namespace Ferrin.PartialJson
open List Option

inductive State where
  | Root
  | Finish
  | InsideString
  | InsideStringEscape
  | InsideStringUnicodeEscape
  | InsideLiteral
  | InsideNumber
  | InsideObjectStart
  | InsideObjectKey
  | InsideObjectKeyEscape
  | InsideObjectAfterKey
  | InsideObjectBeforeValue
  | InsideObjectAfterValue
  | InsideObjectAfterComma
  | InsideArrayStart
  | InsideArrayAfterValue
  | InsideArrayAfterComma
  deriving DecidableEq

/-! ### Positions -/

def utf8Length (text : List Char) : Nat := (text.map Char.utf8Size).sum

def splitAt? : List Char → Nat → Option (List Char × List Char)
  | text,0 => some ([],text)
  | [],_ + 1 => none
  | c :: rest,n + 1 =>
    if c.utf8Size ≤ n + 1 then (splitAt? rest (n + 1 - c.utf8Size)).map fun (before,after) => (c :: before,after) else none

/-- `&text[start..end]`. -/
def slice (text : List Char) (start end_ : Nat) : Option (List Char) := do
  let (before,_) ← splitAt? text end_
  let (_,middle) ← splitAt? before start
  return middle

/-- The top of the stack stands in front. -/
structure Repairer where
  stack : List State
  last_valid_end : Nat
  literal_start : Nat
  unicode_escape_digits : Nat
  unicode_escape_value : Nat
  pending_high_surrogate : Bool

def literals : List (List Char) := [['t','r','u','e'],['f','a','l','s','e'],['n','u','l','l']]

namespace Repairer

def top (r : Repairer) : State := r.stack.head?.getD .Finish
def pop (r : Repairer) : Repairer := { r with stack := r.stack.tail }
def push (r : Repairer) (state : State) : Repairer := { r with stack := state :: r.stack }
def replace_top (r : Repairer) (state : State) : Repairer := r.pop.push state
def valid (r : Repairer) (end_ : Nat) : Repairer := { r with last_valid_end := end_ }

def process_value_start (r : Repairer) (ch : Char) (start end_ : Nat) (swap : State) : Repairer :=
  if ch = '"' then ((r.valid end_).replace_top swap).push .InsideString
  else if ch ∈ ['f','t','n'] then { ((r.valid end_).replace_top swap).push .InsideLiteral with literal_start := start }
  else if ch = '-' then (r.replace_top swap).push .InsideNumber
  else if ch.isDigit then ((r.valid end_).replace_top swap).push .InsideNumber
  else if ch = '\x7b' then ((r.valid end_).replace_top swap).push .InsideObjectStart
  else if ch = '[' then ((r.valid end_).replace_top swap).push .InsideArrayStart
  else r

def process_after_object_value (r : Repairer) (ch : Char) (end_ : Nat) : Repairer :=
  if ch = ',' then r.replace_top .InsideObjectAfterComma else if ch = '\x7d' then (r.valid end_).pop else r

def process_after_array_value (r : Repairer) (ch : Char) (end_ : Nat) : Repairer :=
  if ch = ',' then r.replace_top .InsideArrayAfterComma else if ch = ']' then (r.valid end_).pop else r

def after_array (r : Repairer) (ch : Char) (end_ : Nat) : Repairer :=
  if r.top = .InsideArrayAfterValue then r.process_after_array_value ch end_ else r

def after_object (r : Repairer) (ch : Char) (end_ : Nat) : Repairer :=
  if r.top = .InsideObjectAfterValue then r.process_after_object_value ch end_ else r

def escape_digit (r : Repairer) (digit end_ : Nat) : Repairer :=
  let value := (r.unicode_escape_value * 16 + digit) % 65536
  let r := { r with unicode_escape_value := value,unicode_escape_digits := r.unicode_escape_digits + 1 }
  if r.unicode_escape_digits = 4 then
    let r := r.pop
    if 0xD800 ≤ value ∧ value ≤ 0xDBFF then { r with pending_high_surrogate := true }
    else if r.pending_high_surrogate = false ∨ 0xDC00 ≤ value ∧ value ≤ 0xDFFF then
      { r with pending_high_surrogate := false,last_valid_end := end_ }
    else r
  else r

def step (input : List Char) (r : Repairer) (ch : Char) (start end_ : Nat) : Option Repairer :=
  match r.top with
  | .Root => some (r.process_value_start ch start end_ .Finish)
  | .Finish => some r
  | .InsideObjectStart =>
    some (if ch = '"' then r.replace_top .InsideObjectKey else if ch = '\x7d' then (r.valid end_).pop else r)
  | .InsideObjectAfterComma => some (if ch = '"' then r.replace_top .InsideObjectKey else r)
  | .InsideObjectKey =>
    some (if ch = '"' then r.replace_top .InsideObjectAfterKey else if ch = '\\' then r.push .InsideObjectKeyEscape else r)
  | .InsideObjectKeyEscape => some r.pop
  | .InsideObjectAfterKey => some (if ch = ':' then r.replace_top .InsideObjectBeforeValue else r)
  | .InsideObjectBeforeValue => some (r.process_value_start ch start end_ .InsideObjectAfterValue)
  | .InsideObjectAfterValue => some (r.process_after_object_value ch end_)
  | .InsideString =>
    some (if ch = '"' then r.pop.valid end_ else if ch = '\\' then r.push .InsideStringEscape else r.valid end_)
  | .InsideArrayStart =>
    some (if ch = ']' then (r.valid end_).pop
      else (if ch ≠ '-' then r.valid end_ else r).process_value_start ch start end_ .InsideArrayAfterValue)
  | .InsideArrayAfterValue =>
    some (if ch = ',' then r.replace_top .InsideArrayAfterComma else if ch = ']' then (r.valid end_).pop else r.valid end_)
  | .InsideArrayAfterComma => some (r.process_value_start ch start end_ .InsideArrayAfterValue)
  | .InsideStringEscape =>
    some (if ch = 'u' then { r.pop with unicode_escape_digits := 0,unicode_escape_value := 0 }.push .InsideStringUnicodeEscape
      else r.pop.valid end_)
  | .InsideStringUnicodeEscape => some ((JsonText.hexValue ch).elim r (r.escape_digit · end_))
  | .InsideNumber =>
    some (if ch.isDigit then r.valid end_
      else if ch ∈ ['e','E','-','+','.'] then r
      else if ch = ',' then (r.pop.after_array ch end_).after_object ch end_
      else if ch = '\x7d' then r.pop.after_object ch end_
      else if ch = ']' then r.pop.after_array ch end_
      else r.pop)
  | .InsideLiteral => do
    let written ← slice input r.literal_start end_
    if literals.any (written.isPrefixOf ·) then return r.valid end_
    else if r.pop.top = .InsideObjectAfterValue then return r.pop.process_after_object_value ch end_
    else return r.pop.after_array ch end_

def closer (input : List Char) (literal_start : Nat) : State → Option (List Char)
  | .InsideString => some ['"']
  | .InsideObjectKey | .InsideObjectAfterKey | .InsideObjectAfterComma | .InsideObjectStart | .InsideObjectBeforeValue
  | .InsideObjectAfterValue => some ['\x7d']
  | .InsideArrayStart | .InsideArrayAfterComma | .InsideArrayAfterValue => some [']']
  | .InsideLiteral => do
    let (_,written) ← splitAt? input literal_start
    return ((literals.find? (written.isPrefixOf ·)).map (·.drop written.length)).getD []
  | _ => some []

def finish (input : List Char) (r : Repairer) : Option (List Char) := do
  let (kept,_) ← splitAt? input r.last_valid_end
  r.stack.foldlM (fun result state => (result ++ ·) <$> closer input r.literal_start state) kept

end Repairer

def initial : Repairer := ⟨[.Root],0,0,0,0,false⟩

/-- The characters from a position on. -/
def run (input : List Char) : List Char → Nat → Repairer → Option Repairer
  | [],_,r => some r
  | ch :: rest,start,r => do run input rest (start + ch.utf8Size) (← r.step input ch start (start + ch.utf8Size))

def repair (input : List Char) : Option (List Char) := do (← run input input 0 initial).finish input

/-- States that nothing is pushed on. -/
def leaf (state : State) : Bool :=
  state ∈ [State.InsideLiteral,.InsideNumber,.InsideStringEscape,.InsideStringUnicodeEscape,.InsideObjectKeyEscape]

def bottom (state : State) : Bool := state ∈ [State.Root,.Finish]

def Framed : List State → Prop
  | [] => False
  | [root] => bottom root = true
  | top :: below :: rest => bottom top = false ∧ leaf below = false ∧ Framed (below :: rest)

def Boundary (text : List Char) (n : Nat) : Prop := ∃ before, before <+: text ∧ utf8Length before = n

def Begun (text : List Char) (start : Nat) : Prop :=
  ∃ before written, text = before ++ written ∧ utf8Length before = start ∧ literals.any (written.isPrefixOf ·) = true

structure Safe (text : List Char) (r : Repairer) : Prop where
  framed : Framed r.stack
  valid : Boundary text r.last_valid_end
  literal : Boundary text r.literal_start
  digits : r.unicode_escape_digits ≤ 4 ∧ (r.top = .InsideStringUnicodeEscape → r.unicode_escape_digits < 4)
  begun : r.top = .InsideLiteral → r.last_valid_end = utf8Length text ∧ Begun text r.literal_start

section
variable {text before after input : List Char} {n : Nat} {ch : Char} {state top below : State} {rest : List State} {r : Repairer}

@[simp] theorem splitAt_utf8Length (before after : List Char) :
    splitAt? (before ++ after) (utf8Length before) = some (before,after) := by
  induction before with
  | nil =>
    have zero : utf8Length [] = 0 := rfl
    rw [zero,nil_append,splitAt?]
  | cons c rest ih =>
    obtain ⟨n,size⟩ := Nat.exists_eq_succ_of_ne_zero c.utf8Size_pos.ne'
    have length : utf8Length (c :: rest) = n + utf8Length rest + 1 := by
      simp only [utf8Length,map_cons,sum_cons,size]
      omega
    rw [length,cons_append,splitAt?,size,if_pos (by omega),show n + utf8Length rest + 1 - n.succ = utf8Length rest by omega,ih]
    rfl

theorem slice_utf8Length (before middle after : List Char) :
    slice (before ++ middle ++ after) (utf8Length before) (utf8Length (before ++ middle)) = some middle := by
  rw [slice,splitAt_utf8Length]
  simp only [bind_eq_bind,bind_some,splitAt_utf8Length]
  rfl

theorem Boundary.here (text : List Char) : Boundary text (utf8Length text) := ⟨text,List.prefix_refl text,rfl⟩

theorem Boundary.append (b : Boundary text n) (after : List Char) : Boundary (text ++ after) n := by
  obtain ⟨before,first,length⟩ := b
  exact ⟨before,first.trans (prefix_append text after),length⟩

theorem Framed.swap (framed : Framed (top :: rest)) (kind : bottom state = bottom top) : Framed (state :: rest) := by
  cases rest with
  | nil => exact kind.trans framed
  | cons => exact ⟨kind.trans framed.1,framed.2⟩

theorem Framed.push (framed : Framed (below :: rest)) (kind : bottom top = false) (open_ : leaf below = false) :
    Framed (top :: below :: rest) := ⟨kind,open_,framed⟩

theorem Framed.pop (framed : Framed (top :: rest)) (kind : bottom top = false) :
    ∃ below rest', rest = below :: rest' ∧ leaf below = false ∧ Framed (below :: rest') := by
  cases rest with
  | nil => exact absurd (kind.symm.trans framed) (by decide)
  | cons below rest => exact ⟨below,rest,rfl,framed.2⟩

/-- The machine after a text, when it stands in a state that others can be pushed on. -/
structure Open (text : List Char) (r : Repairer) (top : State) : Prop where
  stack : ∃ rest, r.stack = top :: rest ∧ Framed (top :: rest)
  plain : leaf top = false
  valid : Boundary text r.last_valid_end
  literal : Boundary text r.literal_start
  digits : r.unicode_escape_digits ≤ 4

section
variable (o : Open text r top)
include o

theorem Open.top_eq : r.top = top := by
  obtain ⟨_,held,-⟩ := o.stack
  rw [Repairer.top,held]
  rfl

theorem Open.safe : Safe text r := by
  obtain ⟨_,held,framed⟩ := o.stack
  have plain := o.plain
  refine ⟨held ▸ framed,o.valid,o.literal,⟨o.digits,fun same => ?_⟩,fun same => ?_⟩ <;>
  · rw [o.top_eq.symm.trans same] at plain
    cases plain

theorem Open.keep : Open text (r.valid (utf8Length text)) top :=
  ⟨o.stack,o.plain,.here text,o.literal,o.digits⟩

theorem Open.replace (state : State) (kind : bottom state = bottom top) (plain : leaf state = false) :
    Open text (r.replace_top state) state := by
  obtain ⟨rest,held,framed⟩ := o.stack
  exact ⟨⟨rest,by rw [Repairer.replace_top,Repairer.push,Repairer.pop,held]; rfl,framed.swap kind⟩,plain,o.valid,o.literal,o.digits⟩

theorem Open.pop (kind : bottom top = false) : ∃ below, Open text r.pop below := by
  obtain ⟨_,held,framed⟩ := o.stack
  obtain ⟨below,rest',rfl,plain,framed⟩ := framed.pop kind
  exact ⟨below,⟨rest',by rw [Repairer.pop,held]; rfl,framed⟩,plain,o.valid,o.literal,o.digits⟩

theorem Open.push (kind : bottom state = false) (other : state ≠ .InsideLiteral)
    (other' : state ≠ .InsideStringUnicodeEscape) : Safe text (r.push state) := by
  obtain ⟨_,held,framed⟩ := o.stack
  refine ⟨?_,o.valid,o.literal,⟨o.digits,fun same => absurd same other'⟩,fun same => absurd same other⟩
  rw [Repairer.push,held]
  exact framed.push kind o.plain

theorem Open.after_object (ch : Char) : ∃ top', Open text (r.after_object ch (utf8Length text)) top' := by
  rw [Repairer.after_object,o.top_eq]
  split_ifs with here
  · subst here
    rw [Repairer.process_after_object_value]
    split_ifs
    · exact ⟨_,o.replace _ rfl rfl⟩
    · exact o.keep.pop rfl
    · exact ⟨_,o⟩
  · exact ⟨_,o⟩

theorem Open.after_array (ch : Char) : ∃ top', Open text (r.after_array ch (utf8Length text)) top' := by
  rw [Repairer.after_array,o.top_eq]
  split_ifs with here
  · subst here
    rw [Repairer.process_after_array_value]
    split_ifs
    · exact ⟨_,o.replace _ rfl rfl⟩
    · exact o.keep.pop rfl
    · exact ⟨_,o⟩
  · exact ⟨_,o⟩

end

theorem Open.value_start (o : Open (text ++ [ch]) r top) {swap : State} (kind : bottom swap = bottom top)
    (plain : leaf swap = false) :
    Safe (text ++ [ch]) (r.process_value_start ch (utf8Length text) (utf8Length (text ++ [ch])) swap) := by
  have swapped := o.keep.replace swap kind plain
  rw [Repairer.process_value_start]
  split_ifs with string literal
  · exact swapped.push rfl nofun nofun
  · obtain ⟨_,held,framed⟩ := swapped.stack
    refine ⟨?_,swapped.valid,⟨text,prefix_append text _,rfl⟩,⟨o.digits,nofun⟩,fun _ => ⟨rfl,text,[ch],rfl,rfl,?_⟩⟩
    · dsimp only [Repairer.push]
      rw [held]
      exact framed.push rfl plain
    · simp only [mem_cons,not_mem_nil,or_false] at literal
      rcases literal with rfl | rfl | rfl <;> rfl
  · exact (o.replace swap kind plain).push rfl nofun nofun
  · exact swapped.push rfl nofun nofun
  · exact swapped.push rfl nofun nofun
  · exact swapped.push rfl nofun nofun
  · exact o.safe

theorem Open.append (o : Open text r top) (after : List Char) : Open (text ++ after) r top :=
  ⟨o.stack,o.plain,o.valid.append after,o.literal.append after,o.digits⟩

theorem Safe.open_or_leaf (safe : Safe text r) :
    (∃ top, Open text r top) ∨ leaf r.top = true ∧ bottom r.top = false ∧ ∃ below, Open text r.pop below := by
  obtain ⟨framed,valid,literal,⟨digits,-⟩,-⟩ := safe
  cases held : r.stack with
  | nil => exact (held ▸ framed : Framed []).elim
  | cons top rest =>
    rw [held] at framed
    have first : r.top = top := by rw [Repairer.top,held]; rfl
    cases kind : leaf top with
    | false => exact .inl ⟨top,⟨rest,held,framed⟩,kind,valid,literal,digits⟩
    | true =>
      have inner : bottom top = false := by cases top <;> first | rfl | cases kind
      obtain ⟨below,rest',rfl,plain,framed⟩ := framed.pop inner
      exact .inr ⟨first ▸ kind,first ▸ inner,below,⟨rest',by rw [Repairer.pop,held]; rfl,framed⟩,plain,valid,literal,digits⟩

theorem Open.step (o : Open (text ++ [ch]) r top) (input : List Char) :
    ∃ r', r.step input ch (utf8Length text) (utf8Length (text ++ [ch])) = some r' ∧ Safe (text ++ [ch]) r' := by
  have plain := o.plain
  rw [Repairer.step,o.top_eq]
  cases top with
  | Root => exact ⟨_,rfl,o.value_start rfl rfl⟩
  | Finish => exact ⟨_,rfl,o.safe⟩
  | InsideObjectBeforeValue | InsideArrayAfterComma => exact ⟨_,rfl,o.value_start rfl rfl⟩
  | InsideString =>
    refine ⟨_,rfl,?_⟩
    split_ifs
    · obtain ⟨below,o⟩ := o.pop rfl
      exact o.keep.safe
    · exact o.push rfl nofun nofun
    · exact o.keep.safe
  | InsideObjectStart =>
    refine ⟨_,rfl,?_⟩
    split_ifs
    · exact (o.replace .InsideObjectKey rfl rfl).safe
    · obtain ⟨below,o⟩ := o.keep.pop rfl
      exact o.safe
    · exact o.safe
  | InsideObjectKey =>
    refine ⟨_,rfl,?_⟩
    split_ifs
    · exact (o.replace .InsideObjectAfterKey rfl rfl).safe
    · exact o.push rfl nofun nofun
    · exact o.safe
  | InsideObjectAfterKey =>
    refine ⟨_,rfl,?_⟩
    split_ifs
    · exact (o.replace .InsideObjectBeforeValue rfl rfl).safe
    · exact o.safe
  | InsideObjectAfterComma =>
    refine ⟨_,rfl,?_⟩
    split_ifs
    · exact (o.replace .InsideObjectKey rfl rfl).safe
    · exact o.safe
  | InsideObjectAfterValue =>
    obtain ⟨below,after⟩ := o.after_object ch
    rw [Repairer.after_object,if_pos o.top_eq] at after
    exact ⟨_,rfl,after.safe⟩
  | InsideArrayStart =>
    refine ⟨_,rfl,?_⟩
    split_ifs
    · obtain ⟨below,o⟩ := o.keep.pop rfl
      exact o.safe
    · exact o.keep.value_start rfl rfl
    · exact o.value_start rfl rfl
  | InsideArrayAfterValue =>
    refine ⟨_,rfl,?_⟩
    split_ifs
    · exact (o.replace .InsideArrayAfterComma rfl rfl).safe
    · obtain ⟨_,o⟩ := o.keep.pop rfl
      exact o.safe
    · exact o.keep.safe
  | _ => cases plain

theorem Safe.leaf_pop (safe : Safe text r) (kind : leaf r.top = true) : ∃ below, Open text r.pop below := by
  rcases safe.open_or_leaf with ⟨_,o⟩ | ⟨-,-,popped⟩
  · rw [o.top_eq,o.plain] at kind
    cases kind
  · exact popped

theorem Safe.escape_digit (safe : Safe text r) (top : r.top = .InsideStringUnicodeEscape) (digit : Nat) :
    Safe text (r.escape_digit digit (utf8Length text)) := by
  have few := safe.digits.2 top
  obtain ⟨below,o⟩ := safe.leaf_pop (top ▸ rfl)
  have popped (r' : Repairer) (stack : r'.stack = r.pop.stack) (valid : Boundary text r'.last_valid_end)
      (literal : Boundary text r'.literal_start) (digits : r'.unicode_escape_digits ≤ 4) : Safe text r' :=
    (⟨stack ▸ o.stack,o.plain,valid,literal,digits⟩ : Open text r' below).safe
  rw [Repairer.escape_digit]
  dsimp only
  split_ifs with four
  · exact popped _ rfl o.valid o.literal four.le
  · exact popped _ rfl (.here text) o.literal four.le
  · exact popped _ rfl o.valid o.literal four.le
  · exact ⟨safe.framed,safe.valid,safe.literal,⟨by dsimp only; omega,fun _ => by dsimp only at four ⊢; omega⟩,
      fun same => absurd (top.symm.trans same) nofun⟩

theorem Safe.step_leaf (safe : Safe text r) (kind : leaf r.top = true) (here : input = text ++ ch :: after) :
    ∃ r', r.step input ch (utf8Length text) (utf8Length (text ++ [ch])) = some r' ∧ Safe (text ++ [ch]) r' := by
  obtain ⟨_,o⟩ := safe.leaf_pop kind
  have o := o.append [ch]
  have framed := safe.framed
  have valid := safe.valid.append [ch]
  have literal := safe.literal.append [ch]
  have digits := safe.digits
  rw [Repairer.step]
  cases top : r.top with
  | InsideObjectKeyEscape => exact ⟨_,rfl,o.safe⟩
  | InsideStringEscape =>
    refine ⟨_,rfl,?_⟩
    split_ifs
    · obtain ⟨_,held,framed⟩ := o.stack
      refine ⟨?_,o.valid,o.literal,⟨Nat.zero_le 4,fun _ => Nat.zero_lt_succ 3⟩,nofun⟩
      dsimp only [Repairer.push]
      rw [held]
      exact framed.push rfl o.plain
    · exact o.keep.safe
  | InsideStringUnicodeEscape =>
    have still : Safe (text ++ [ch]) r := ⟨framed,valid,literal,digits,fun same => absurd (top.symm.trans same) nofun⟩
    refine ⟨_,rfl,?_⟩
    cases JsonText.hexValue ch with
    | none => exact still
    | some digit => exact still.escape_digit top digit
  | InsideNumber =>
    have still : ∀ {n}, Boundary (text ++ [ch]) n → Safe (text ++ [ch]) { r with last_valid_end := n } := fun valid =>
      ⟨framed,valid,literal,digits,fun same => absurd (top.symm.trans same) nofun⟩
    refine ⟨_,rfl,?_⟩
    split_ifs
    · exact still (.here _)
    · exact still valid
    · obtain ⟨_,o⟩ := o.after_array ch
      obtain ⟨_,o⟩ := o.after_object ch
      exact o.safe
    · obtain ⟨_,o⟩ := o.after_object ch
      exact o.safe
    · obtain ⟨_,o⟩ := o.after_array ch
      exact o.safe
    · exact o.safe
  | InsideLiteral =>
    obtain ⟨before,written,rfl,start,-⟩ := (safe.begun top).2
    have sliced : slice input r.literal_start (utf8Length (before ++ written ++ [ch])) = some (written ++ [ch]) := by
      have := slice_utf8Length before (written ++ [ch]) after
      rw [here,← start]
      simpa using this
    dsimp only
    rw [sliced]
    simp only [bind_eq_bind,bind_some]
    split_ifs with begun object
    · exact ⟨_,rfl,framed,.here _,literal,⟨digits.1,fun same => absurd (top.symm.trans same) nofun⟩,
        fun _ => ⟨rfl,before,written ++ [ch],by simp,start,begun⟩⟩
    · obtain ⟨_,o⟩ := o.after_object ch
      rw [Repairer.after_object,if_pos object] at o
      exact ⟨_,rfl,o.safe⟩
    · obtain ⟨_,o⟩ := o.after_array ch
      exact ⟨_,rfl,o.safe⟩
  | _ => exact absurd kind (by rw [top]; decide)

theorem Safe.step (safe : Safe text r) (here : input = text ++ ch :: after) :
    ∃ r', r.step input ch (utf8Length text) (utf8Length (text ++ [ch])) = some r' ∧ Safe (text ++ [ch]) r' := by
  rcases safe.open_or_leaf with ⟨_,o⟩ | ⟨kind,-,-⟩
  · exact (o.append [ch]).step input
  · exact safe.step_leaf kind here

theorem run_safe (more : List Char) (safe : Safe text r) (here : input = text ++ more ++ after) :
    ∃ r', run input more (utf8Length text) r = some r' ∧ Safe (text ++ more) r' := by
  induction more generalizing text r with
  | nil => exact ⟨r,rfl,by rwa [append_nil]⟩
  | cons ch more ih =>
    obtain ⟨_,stepped,safe⟩ := safe.step (show input = text ++ ch :: (more ++ after) by simpa using here)
    have next : utf8Length (text ++ [ch]) = utf8Length text + ch.utf8Size := by simp [utf8Length]
    obtain ⟨r'',ran,safe⟩ := ih safe (by simpa using here)
    rw [next] at stepped ran
    refine ⟨r'',?_,by simpa using safe⟩
    rw [run,stepped]
    exact ran

theorem initial_safe : Safe [] initial :=
  ⟨rfl,⟨[], nil_prefix,rfl⟩,⟨[], nil_prefix,rfl⟩,⟨Nat.zero_le 4,nofun⟩,nofun⟩

/-! ### The result -/

theorem Framed.below_open (framed : Framed (top :: rest)) : ∀ state ∈ rest, leaf state = false := by
  induction rest generalizing top with
  | nil => nofun
  | cons _ _ ih =>
    intro state mem
    rcases List.mem_cons.mp mem with rfl | mem
    · exact framed.2.1
    · exact ih framed.2.2 state mem

theorem closer_of_other (input : List Char) (start : Nat) (other : state ≠ .InsideLiteral) :
    ∃ closers, Repairer.closer input start state = some closers ∧ ∀ c ∈ closers, c ∈ ['"','\x7d',']'] := by
  cases state with
  | InsideLiteral => exact absurd rfl other
  | _ => exact ⟨_,rfl,by simp⟩

theorem close_all (input kept : List Char) (start : Nat) {stack : List State} (other : ∀ state ∈ stack, state ≠ .InsideLiteral) :
    ∃ closers, stack.foldlM (fun result state => (result ++ ·) <$> Repairer.closer input start state) kept = some (kept ++ closers) ∧
      ∀ c ∈ closers, c ∈ ['"','\x7d',']'] := by
  induction stack generalizing kept with
  | nil => exact ⟨[],by simp,nofun⟩
  | cons state _ ih =>
    obtain ⟨first,closed,all⟩ := closer_of_other input start (other state mem_cons_self)
    obtain ⟨closers,done,all'⟩ := ih (kept ++ first) fun state mem => other state (mem_cons_of_mem _ mem)
    refine ⟨first ++ closers,?_,fun c mem => (List.mem_append.mp mem).elim (all c) (all' c)⟩
    rw [foldlM_cons,closed,← append_assoc]
    exact done

theorem finish_safe (safe : Safe input r) : ∃ kept completion closers, r.finish input = some (kept ++ completion ++ closers) ∧
    kept <+: input ∧ (completion = [] ∨ ∃ literal ∈ literals, ∃ before written,
      kept = before ++ written ∧ written ++ completion = literal) ∧ ∀ c ∈ closers, c ∈ ['"','\x7d',']'] := by
  obtain ⟨kept,⟨after,whole⟩,length⟩ := safe.valid
  have split : splitAt? input r.last_valid_end = some (kept,after) := by rw [← whole,← length,splitAt_utf8Length]
  rw [Repairer.finish,split]
  simp only [bind_eq_bind,bind_some]
  cases held : r.stack with
  | nil => exact (held ▸ safe.framed : Framed []).elim
  | cons top rest =>
    have framed : Framed (top :: rest) := held ▸ safe.framed
    have others : ∀ state ∈ rest, state ≠ .InsideLiteral := by
      rintro state mem rfl
      exact absurd (framed.below_open _ mem) (by decide)
    by_cases literal : top = .InsideLiteral
    · subst literal
      obtain ⟨end_,before,written,spelled,start,begun⟩ := safe.begun (by rw [Repairer.top,held]; rfl)
      obtain ⟨found,mem,begins⟩ := List.any_eq_true.mp begun
      obtain ⟨literal,found⟩ := Option.isSome_iff_exists.mp (List.find?_isSome.mpr ⟨found,mem,begins⟩)
      obtain ⟨completion,rfl⟩ := List.isPrefixOf_iff_prefix.mp (find?_some found)
      have here := splitAt_utf8Length before written
      rw [← spelled,start] at here
      obtain ⟨closers,done,all⟩ := close_all input (kept ++ completion) r.literal_start others
      have all_kept : kept = input := by
        have same := splitAt_utf8Length input []
        rw [append_nil,← end_,split] at same
        exact (Prod.mk.inj (some.inj same)).1
      refine ⟨kept,completion,closers,?_,⟨after,whole⟩,
        .inr ⟨_,mem_of_find?_eq_some found,before,written,all_kept.trans spelled,rfl⟩,all⟩
      rw [foldlM_cons,Repairer.closer,here]
      simp only [bind_eq_bind,bind_some,found,map_some,getD_some,drop_left]
      exact done
    · obtain ⟨closers,done,all⟩ := @close_all input kept r.literal_start (top :: rest)
        fun state mem => (List.mem_cons.mp mem).elim (fun same => same ▸ literal) (others state)
      exact ⟨kept,[],closers,by simpa using done,⟨after,whole⟩,.inl rfl,all⟩

end

/-- Between any two characters the stack stands on its root and the positions are character boundaries of what is read.
The result is a beginning of the input, perhaps the rest of a literal, and closers. -/
theorem repair_safe (input : List Char) :
    (∀ read rest, input = read ++ rest → ∃ r, run input read 0 initial = some r ∧ Framed r.stack ∧
      Boundary read r.last_valid_end ∧ Boundary read r.literal_start) ∧
    ∃ kept completion closers, repair input = some (kept ++ completion ++ closers) ∧ kept <+: input ∧
      (completion = [] ∨ ∃ literal ∈ literals, ∃ before written, kept = before ++ written ∧ written ++ completion = literal) ∧
      ∀ c ∈ closers, c ∈ ['"','\x7d',']'] := by
  have zero : utf8Length [] = 0 := rfl
  constructor
  · intro read rest whole
    obtain ⟨r,ran,safe⟩ := run_safe read initial_safe (show input = [] ++ read ++ rest by simpa using whole)
    exact ⟨r,ran,safe.framed,safe.valid,safe.literal⟩
  · obtain ⟨r,ran,safe⟩ := run_safe input initial_safe (show input = [] ++ input ++ [] by simp)
    rw [zero] at ran
    rw [repair,ran]
    exact finish_safe safe

end Ferrin.PartialJson
