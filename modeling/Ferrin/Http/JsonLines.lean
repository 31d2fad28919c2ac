import Ferrin.GenerateText.ParseToolCall
import Ferrin.Library.Utf8
import Ferrin.SecureUrl.Download
import Ferrin.Stream.Driver

/-!
Newline-delimited JSON read in chunks, with a limit on the length of a line. The
limit is checked against the bytes that have arrived; all the same the outcomes
are those of the lines of the whole body (`outcomes_delivered`).
-/
namespace Ferrin.JsonLines
open Ferrin.SecureUrl Ferrin.Stream List

/-- The body of a response, by the outcomes of reading its chunks. -/
abbrev BodyStream := List (Except TransportError (List UInt8))

/-- How a response is read: the error of its request for a failure below it, and the parser of a line. -/
structure Reader (T : Type) where
  stream_error : TransportError → ProviderError
  parse_json_chunk : List Char → ParseResult T

structure State where
  body : Option BodyStream
  chunk : List UInt8
  line : List UInt8
  max_line_bytes : Nat

def newline : UInt8 := 10

/-- `str::trim_end_matches('\r')`. -/
def trim_end_cr (text : List Char) : List Char := text.rdropWhile (· = '\r')

inductive Turn (T : Type) where
  | Return (outcome : Option (ParseResult T)) (s : State)
  | Continue (s : State)

namespace State

def new (body : BodyStream) (max_line_bytes : Nat) : State := ⟨some body,[],[],max_line_bytes⟩

def finish (s : State) : State := { s with body := none,chunk := [],line := [] }

variable {T : Type}

def error (r : Reader T) (s : State) (error : TransportError) : Turn T :=
  .Return (some (.Err (r.stream_error error) none)) s.finish

end State

def item {T : Type} (r : Reader T) (line : List UInt8) : Option (ParseResult T) :=
  let text := Utf8.decode line
  if text.all GenerateText.is_whitespace then none else some (r.parse_json_chunk (trim_end_cr text))

def line_too_large (max_line_bytes : Nat) : TransportError :=
  ⟨.BodyTooLarge,s!"json line exceeds the limit of {max_line_bytes} bytes"⟩

namespace State
variable {T : Type}

def take_line (r : Reader T) (s : State) : State × Option (ParseResult T) := ({ s with line := [] },item r s.line)

/-- One turn of the loop of `next`. -/
def turn (r : Reader T) (s : State) : Turn T :=
  if s.chunk ≠ [] then
    let found := s.chunk.findIdx? (· = newline)
    let count := found.getD s.chunk.length
    if count > s.max_line_bytes - s.line.length then s.error r (line_too_large s.max_line_bytes)
    else
      let s := { s with line := s.line ++ s.chunk.take count,chunk := s.chunk.drop count }
      if found.isSome then
        let (s,item) := { s with chunk := s.chunk.drop 1 }.take_line r
        match item with
        | some item => .Return (some item) s
        | none => .Continue s
      else .Continue s
  else
    match s.body with
    | none =>
      let (s,item) := s.take_line r
      .Return item s
    | some [] => .Continue { s with body := none }
    | some (.ok chunk :: rest) => .Continue { s with body := some rest,chunk }
    | some (.error error :: _) => s.error r error

/-- What is left to read. A byte of a chunk counts twice, as it may have to be read again in its line. -/
def size (s : State) : Nat :=
  (match s.body with
    | none => 0
    | some chunks => 1 + (chunks.map fun
      | .ok chunk => 1 + 2 * chunk.length
      | .error _ => 1).sum) + 2 * s.chunk.length + s.line.length

section
variable {r : Reader T} {s s' : State}

theorem turn_open (some_ : s.chunk ≠ []) (unfinished : newline ∉ s.chunk) : s.turn r =
    if s.chunk.length > s.max_line_bytes - s.line.length then s.error r (line_too_large s.max_line_bytes)
    else .Continue { s with line := s.line ++ s.chunk,chunk := [] } := by
  have none_ : s.chunk.findIdx? (· = newline) = none := by
    rw [findIdx?_eq_none_iff]
    intro byte member
    exact decide_eq_false fun same => unfinished (same ▸ member)
  simp only [turn,if_pos some_,none_,Option.getD_none,Option.isSome_none,take_length,drop_length]
  simp

theorem turn_line {before after : List UInt8} (cut : s.chunk = before ++ newline :: after) (first : newline ∉ before) :
    s.turn r =
      if before.length > s.max_line_bytes - s.line.length then s.error r (line_too_large s.max_line_bytes)
      else
        match item r (s.line ++ before) with
        | some item => .Return (some item) { s with line := [],chunk := after }
        | none => .Continue { s with line := [],chunk := after } := by
  have found : s.chunk.findIdx? (· = newline) = some before.length := by
    rw [cut,findIdx?_append,List.findIdx?_eq_none_iff.mpr]
    · simp [findIdx?_cons]
    · intro byte member
      exact decide_eq_false fun same => first (same ▸ member)
  have some_ : s.chunk ≠ [] := by simp [cut]
  simp only [turn,if_pos some_,found,Option.getD_some,Option.isSome_some]
  simp only [cut,take_left,drop_left,drop_one,tail_cons,take_line]
  rfl

theorem chunk_cases (chunk : List UInt8) :
    newline ∉ chunk ∨ ∃ before after, chunk = before ++ newline :: after ∧ newline ∉ before := by
  by_cases mem : newline ∈ chunk
  · exact .inr (eq_append_cons_of_mem mem)
  · exact .inl mem

theorem turn_size (s : State) : match s.turn r with
    | .Continue s' => s'.size < s.size
    | .Return (some _) s' => s'.size < s.size
    | .Return none _ => True := by
  obtain ⟨body,chunk,line,_⟩ := s
  by_cases some_ : chunk = []
  · subst some_
    match body with
    | none =>
      cases told : item r line with
      | none => simp [turn,take_line,told]
      | some item =>
        have nonempty : line ≠ [] := by
          rintro rfl
          simp [JsonLines.item] at told
        have long := List.length_pos_iff.mpr nonempty
        simp [turn,take_line,told,size]
        omega
    | some [] => simp [turn,size]
    | some (.ok chunk :: rest) => simp [turn,size]; omega
    | some (.error error :: rest) => simp [turn,State.error,finish,size]
  · have long := List.length_pos_iff.mpr some_
    rcases chunk_cases chunk with unfinished | ⟨before,_,rfl,first⟩
    · rw [turn_open some_ unfinished]
      split_ifs
      · simp [State.error,finish,size]
        omega
      · simp [size]
        omega
    · rw [turn_line rfl first]
      split_ifs
      · simp [State.error,finish,size]
      · cases item r (line ++ before) <;> simp [size] <;> omega

end

def next (r : Reader T) (s : State) : Option (ParseResult T) × State :=
  match _told : s.turn r with
  | .Return outcome s => (outcome,s)
  | .Continue s' => s'.next r
termination_by s.size
decreasing_by
  have smaller := turn_size (r := r) s
  rw [_told] at smaller
  exact smaller

theorem next_eq (r : Reader T) (s : State) : s.next r =
    match s.turn r with
    | .Return outcome s => (outcome,s)
    | .Continue s' => s'.next r := by
  rw [next]
  split <;> rename_i told <;> rw [told]

theorem next_size (r : Reader T) (s : State) (delivered : (s.next r).1.isSome) : (s.next r).2.size < s.size := by
  induction found : s.size using Nat.strong_induction_on generalizing s with
  | _ n ih =>
    subst found
    have smaller := turn_size (r := r) s
    rw [next_eq] at delivered ⊢
    cases told : s.turn r with
    | Return =>
      rw [told] at smaller delivered
      obtain ⟨_,rfl⟩ := Option.isSome_iff_exists.mp delivered
      exact smaller
    | Continue s' =>
      rw [told] at smaller delivered
      exact (ih s'.size smaller s' delivered rfl).trans smaller

def outcomes (r : Reader T) (s : State) : List (ParseResult T) :=
  match _told : s.next r with
  | (none,_) => []
  | (some item,s') => item :: s'.outcomes r
termination_by s.size
decreasing_by
  have smaller := next_size r s
  rw [_told] at smaller
  exact smaller rfl

theorem outcomes_eq (r : Reader T) (s : State) : s.outcomes r =
    match s.turn r with
    | .Return none _ => []
    | .Return (some item) s' => item :: s'.outcomes r
    | .Continue s' => s'.outcomes r := by
  have unfolded (s : State) : s.outcomes r = match s.next r with
      | (none,_) => []
      | (some item,s') => item :: s'.outcomes r := by
    rw [outcomes]
    split <;> rename_i told <;> rw [told]
  rw [unfolded,next_eq]
  cases s.turn r with
  | Return outcome => cases outcome <;> rfl
  | Continue s' => exact (unfolded s').symm

end State

/-! ### The whole body -/

def bytes : BodyStream → List UInt8
  | .ok chunk :: rest => chunk ++ bytes rest
  | _ => []

def failure : BodyStream → Option TransportError
  | [] => none
  | .ok _ :: rest => failure rest
  | .error error :: _ => some error

def delivered {T : Type} (r : Reader T) (max_line_bytes : Nat) (failure : Option TransportError)
    (lines : List (List UInt8)) : List (ParseResult T) :=
  let fitting := lines.takeWhile fun line => line.length ≤ max_line_bytes
  if fitting.length < lines.length then
    fitting.filterMap (item r) ++ [.Err (r.stream_error (line_too_large max_line_bytes)) none]
  else
    match failure with
    | none => lines.filterMap (item r)
    | some error => lines.dropLast.filterMap (item r) ++ [.Err (r.stream_error error) none]

section
variable {T : Type} {r : Reader T} {limit : Nat} {failed : Option TransportError}

theorem delivered_long {line : List UInt8} (rest : List (List UInt8)) (long : limit < line.length) :
    delivered r limit failed (line :: rest) = [.Err (r.stream_error (line_too_large limit)) none] := by
  simp [delivered,Nat.not_le.mpr long]

theorem delivered_cons {line : List UInt8} {rest : List (List UInt8)} (fits : line.length ≤ limit) (more : rest ≠ []) :
    delivered r limit failed (line :: rest) = (item r line).toList ++ delivered r limit failed rest := by
  have head (items : List (List UInt8)) : (line :: items).filterMap (item r) = (item r line).toList ++ items.filterMap (item r) := by
    rw [filterMap_cons]
    cases item r line <;> rfl
  simp only [delivered,takeWhile_cons,decide_eq_true fits,if_true,length_cons,Nat.add_lt_add_iff_right,head,
    dropLast_cons_of_ne_nil more]
  split_ifs
  · exact append_assoc _ _ _
  · cases failed with
    | none => rfl
    | some => exact append_assoc _ _ _

theorem splitOn_append {before : List UInt8} (plain : newline ∉ before) (after : List UInt8) :
    (before ++ after).splitOn newline = (after.splitOn newline).modifyHead (before ++ ·) := by
  induction before with
  | nil =>
    rw [nil_append]
    cases after.splitOn newline <;> rfl
  | cons _ _ ih =>
    rw [mem_cons,not_or] at plain
    rw [cons_append,splitOn_cons_eq_if_modifyHead,if_neg (by simpa using Ne.symm plain.1),ih plain.2]
    cases after.splitOn newline <;> rfl

def State.lines (s : State) : List (List UInt8) := (s.line ++ s.chunk ++ bytes (s.body.getD [])).splitOn newline

theorem outcomes_finish (s : State) : s.finish.outcomes r = [] := by
  rw [State.outcomes_eq]
  simp [State.turn,State.finish,State.take_line,item]

theorem outcomes_error (s : State) (error : TransportError) (turned : s.turn r = s.error r error) :
    s.outcomes r = [.Err (r.stream_error error) none] := by
  rw [State.outcomes_eq,turned]
  simp [State.error,outcomes_finish]

theorem outcomes_lines (s : State) (plain : newline ∉ s.line) (fits : s.line.length ≤ s.max_line_bytes) :
    s.outcomes r = delivered r s.max_line_bytes (failure (s.body.getD [])) s.lines := by
  induction found : s.size using Nat.strong_induction_on generalizing s with
  | _ n ih =>
    subst found
    obtain ⟨body,chunk,line,limit⟩ := s
    have smaller := State.turn_size (r := r) ⟨body,chunk,line,limit⟩
    dsimp only at plain fits
    by_cases some_ : chunk = []
    · subst some_
      match body with
      | none =>
        have single : State.lines ⟨none,[],line,limit⟩ = [line] := by
          simp [State.lines,bytes,splitOn_eq_singleton plain]
        rw [single,State.outcomes_eq]
        cases told : item r line with
        | none => simp [State.turn,State.take_line,told,delivered,fits,failure]
        | some =>
          have rest : State.outcomes r ⟨none,[],[],limit⟩ = [] := outcomes_finish ⟨none,[],[],limit⟩
          simp [State.turn,State.take_line,told,delivered,fits,failure,rest]
      | some [] =>
        have turned : State.turn r ⟨some [],[],line,limit⟩ = .Continue ⟨none,[],line,limit⟩ := rfl
        rw [turned] at smaller
        rw [State.outcomes_eq,turned]
        exact ih _ smaller ⟨none,[],line,limit⟩ plain fits rfl
      | some (.ok chunk :: rest) =>
        have turned : State.turn r ⟨some (.ok chunk :: rest),[],line,limit⟩ = .Continue ⟨some rest,chunk,line,limit⟩ := rfl
        rw [turned] at smaller
        rw [State.outcomes_eq,turned]
        refine (ih _ smaller ⟨some rest,chunk,line,limit⟩ plain fits rfl).trans ?_
        simp [State.lines,bytes,failure]
      | some (.error error :: rest) =>
        have single : State.lines ⟨some (.error error :: rest),[],line,limit⟩ = [line] := by
          simp [State.lines,bytes,splitOn_eq_singleton plain]
        rw [single,outcomes_error _ error rfl]
        simp [delivered,fits,failure]
    · rcases State.chunk_cases chunk with unfinished | ⟨before,after,rfl,first⟩
      · have turned := State.turn_open (r := r) (s := ⟨body,chunk,line,limit⟩) some_ unfinished
        dsimp only at turned
        split_ifs at turned with long
        · have cut : State.lines ⟨body,chunk,line,limit⟩ =
              ((bytes (body.getD [])).splitOn newline).modifyHead ((line ++ chunk) ++ ·) := by
            refine splitOn_append ?_ _
            simp [plain,unfinished]
          rw [outcomes_error _ _ turned,cut]
          obtain ⟨_,_,split⟩ := exists_cons_of_ne_nil (splitOn_ne_nil newline (bytes (body.getD [])))
          rw [split,modifyHead_cons,delivered_long]
          simp only [length_append]
          omega
        · rw [turned] at smaller
          rw [State.outcomes_eq,turned]
          refine (ih _ smaller ⟨body,[],line ++ chunk,limit⟩ ?_ ?_ rfl).trans ?_
          · simp [plain,unfinished]
          · simp only [length_append]
            omega
          · simp [State.lines]
      · have turned := State.turn_line (r := r) (s := ⟨body,before ++ newline :: after,line,limit⟩) rfl first
        have cut : State.lines ⟨body,before ++ newline :: after,line,limit⟩ =
            (line ++ before) :: State.lines ⟨body,after,[],limit⟩ := by
          have whole : line ++ (before ++ newline :: after) ++ bytes (body.getD []) =
              (line ++ before) ++ newline :: (after ++ bytes (body.getD [])) := by simp
          have first_ : newline ∉ line ++ before := by simp [plain,first]
          rw [State.lines,whole,splitOn_append_cons_self_of_not_mem first_]
          rfl
        dsimp only at turned
        rw [cut]
        split_ifs at turned with long
        · rw [outcomes_error _ _ turned,delivered_long]
          simp only [length_append]
          omega
        · have fits' : (line ++ before).length ≤ limit := by
            simp only [length_append]
            omega
          have more : State.lines ⟨body,after,[],limit⟩ ≠ [] := splitOn_ne_nil newline _
          rw [turned] at smaller
          rw [State.outcomes_eq,turned,delivered_cons fits' more]
          cases told : item r (line ++ before) with
          | none =>
            rw [told] at smaller
            exact ih _ smaller ⟨body,after,[],limit⟩ (by simp) (Nat.zero_le _) rfl
          | some item =>
            rw [told] at smaller
            exact congrArg (item :: ·) (ih _ smaller ⟨body,after,[],limit⟩ (by simp) (Nat.zero_le _) rfl)

end

/-- However a body is cut into chunks, its outcomes are those of its bytes. -/
theorem outcomes_delivered {T : Type} (r : Reader T) (max_line_bytes : Nat) (body : BodyStream) :
    (State.new body max_line_bytes).outcomes r =
      delivered r max_line_bytes (failure body) ((bytes body).splitOn newline) :=
  outcomes_lines (.new body max_line_bytes) (by simp [State.new]) (Nat.zero_le _)

end Ferrin.JsonLines
