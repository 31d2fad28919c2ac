import Mathlib.Data.List.Infix

/-!
Searching a text that arrives in pieces for a delimiter. The end of a text that
may begin the delimiter is held back. When the delimiter begins with what does
not occur in it again, a search goes on as if the text had come at once
(`scan_append_held`).
-/
namespace Ferrin.Delimiter
open List
variable {α : Type}

section
variable [DecidableEq α]

def find (needle : List α) : List α → Option Nat
  | [] => if needle = [] then some 0 else none
  | x :: rest => if needle <+: x :: rest then some 0 else (find needle rest).map (· + 1)

/-- The last place from which the text is a beginning of the needle. -/
def tail_start (needle : List α) : List α → Option Nat
  | [] => none
  | x :: rest =>
    match tail_start needle rest with
    | some i => some (i + 1)
    | none => if x :: rest <+: needle then some 0 else none

end

/-- What a search comes to: the text around the needle, or the text that is free and the text held back. -/
inductive Scan (α : Type) where
  | found (before after : List α)
  | held (before rest : List α)

namespace Scan

def prepend (first : List α) : Scan α → Scan α
  | .found before after => .found (first ++ before) after
  | .held before rest => .held (first ++ before) rest

theorem prepend_prepend (first second : List α) (s : Scan α) :
    (s.prepend second).prepend first = s.prepend (first ++ second) := by
  cases s <;> simp [prepend]

@[simp] theorem prepend_nil (s : Scan α) : s.prepend [] = s := by
  cases s <;> rfl

end Scan

variable [DecidableEq α]

def scan (needle text : List α) : Scan α :=
  match find needle text with
  | some i => .found (text.take i) (text.drop (i + needle.length))
  | none =>
    match tail_start needle text with
    | some i => .held (text.take i) (text.drop i)
    | none => .held text []

section
variable {needle text : List α}

/-! ### Places -/

variable {i j : Nat} {front more before after rest : List α} {x : α}

theorem find_some (found : find needle text = some i) : needle <+: text.drop i ∧ i + needle.length ≤ text.length := by
  induction text generalizing i with
  | nil =>
    simp only [find,Option.ite_none_right_eq_some] at found
    obtain ⟨rfl,same⟩ := found
    cases same
    simp
  | cons _ _ ih =>
    unfold find at found
    split_ifs at found with here
    · cases found
      refine ⟨here,?_⟩
      have := here.length_le
      omega
    · obtain ⟨j,later,rfl⟩ := Option.map_eq_some_iff.mp found
      obtain ⟨there,_⟩ := ih later
      refine ⟨there,?_⟩
      rw [length_cons]
      omega

theorem tail_start_some (start : tail_start needle text = some i) : text.drop i <+: needle ∧ i < text.length := by
  induction text generalizing i with
  | nil => cases start
  | cons _ _ ih =>
    unfold tail_start at start
    split at start
    case h_1 j later =>
      cases start
      obtain ⟨there,short⟩ := ih later
      exact ⟨there,Nat.succ_lt_succ short⟩
    case h_2 =>
      rw [Option.ite_none_right_eq_some] at start
      obtain ⟨here,same⟩ := start
      cases same
      exact ⟨here,Nat.succ_pos _⟩

theorem find_none_drop (absent : find needle text = none) : ¬ needle <+: text.drop i := by
  induction text generalizing i with
  | nil =>
    simp only [find,ite_eq_right_iff,reduceCtorEq,imp_false] at absent
    simpa using absent
  | cons _ _ ih =>
    unfold find at absent
    split_ifs at absent with here
    have later := Option.map_eq_none_iff.mp absent
    cases i with
    | zero => exact here
    | succ => exact ih later

theorem find_of_append (found : find needle (front ++ text) = some i) (after : front.length ≤ i) :
    find needle text = some (i - front.length) := by
  induction front generalizing i with
  | nil => exact found
  | cons _ _ ih =>
    rw [cons_append,find] at found
    split_ifs at found with here
    · cases found
      exact absurd after (by simp)
    · obtain ⟨j,later,rfl⟩ := Option.map_eq_some_iff.mp found
      rw [length_cons] at after ⊢
      rw [ih later (by omega)]
      congr 1
      omega

theorem find_none_append (absent : find needle (front ++ text) = none) : find needle text = none := by
  cases found : find needle text with
  | none => rfl
  | some i =>
    have there := (find_some found).1
    have same : (front ++ text).drop (front.length + i) = text.drop i := drop_length_add_append i
    rw [← same] at there
    exact absurd there (find_none_drop absent)

theorem find_append_left (found : find needle text = some j)
    (after : ∀ i, find needle (front ++ text) = some i → front.length ≤ i) :
    find needle (front ++ text) = some (front.length + j) := by
  cases place : find needle (front ++ text) with
  | none =>
    rw [find_none_append place] at found
    cases found
  | some i =>
    have fits := after i place
    have same := Option.some.inj ((find_of_append place fits).symm.trans found)
    congr 1
    omega

theorem tail_start_append {k : Nat} (start : tail_start needle text = some k) :
    tail_start needle (front ++ text) = some (front.length + k) := by
  induction front with
  | nil => simpa using start
  | cons _ _ ih =>
    rw [cons_append,tail_start,ih]
    dsimp only
    rw [length_cons]
    congr 1
    omega

theorem tail_start_isSome (beginning : text.drop i <+: needle) (inside : i < text.length) :
    ∃ k, tail_start needle text = some k ∧ i ≤ k := by
  induction text generalizing i with
  | nil => cases inside
  | cons x rest ih =>
    cases i with
    | succ =>
      obtain ⟨k,start,le⟩ := ih beginning (Nat.lt_of_succ_lt_succ inside)
      exact ⟨k + 1,by rw [tail_start,start],Nat.succ_le_succ le⟩
    | zero =>
      rw [tail_start]
      cases later : tail_start needle rest with
      | some k => exact ⟨k + 1,rfl,Nat.zero_le _⟩
      | none => exact ⟨0,if_pos beginning,Nat.le_refl _⟩

def free (needle text : List α) : Nat := (tail_start needle text).getD text.length

theorem free_le : free needle text ≤ text.length := by
  unfold free
  cases start : tail_start needle text with
  | none => exact Nat.le_refl _
  | some => exact Nat.le_of_lt (tail_start_some start).2

section
variable (absent : find needle text = none)
include absent

theorem scan_free :
    scan needle text = .held (text.take (free needle text)) (text.drop (free needle text)) := by
  rw [scan,absent,free]
  cases tail_start needle text with
  | none => simp
  | some => rfl

theorem beginning_of_find
    (found : find needle (text ++ more) = some i) (inside : i < text.length) : text.drop i <+: needle := by
  have there := (find_some found).1
  rw [drop_append_of_le_length (Nat.le_of_lt inside)] at there
  rcases prefix_or_prefix_of_prefix there (prefix_append (text.drop i) more) with whole | part
  · exact absurd whole (find_none_drop absent)
  · exact part

theorem free_of_append
    (found : find needle (text ++ more) = some j) (before : free needle (front ++ text) ≤ front.length + j) :
    free needle text ≤ j := by
  unfold free at before ⊢
  cases start : tail_start needle text with
  | some =>
    rw [tail_start_append start] at before
    exact Nat.le_of_add_le_add_left before
  | none =>
    refine Nat.not_lt.mp fun inside => ?_
    obtain ⟨k,there,_⟩ := tail_start_isSome (beginning_of_find absent found inside) inside
    rw [start] at there
    cases there

theorem held_short (start : tail_start needle text = some i) :
    text.length < i + needle.length := by
  obtain ⟨beginning,_⟩ := tail_start_some start
  by_contra fits
  have long : needle.length ≤ (text.drop i).length := by
    rw [length_drop]
    omega
  have whole : text.drop i = needle := beginning.eq_of_length_le long
  have there : needle <+: text.drop i := by rw [whole]
  exact find_none_drop absent there

end

theorem find_append (found : find needle text = some i) (more : List α) : find needle (text ++ more) = some i := by
  induction text generalizing i with
  | nil =>
    simp only [find,Option.ite_none_right_eq_some] at found
    obtain ⟨rfl,same⟩ := found
    cases same
    cases more <;> simp [find]
  | cons x rest ih =>
    rw [cons_append]
    unfold find at found ⊢
    split_ifs at found with here
    · cases found
      have still : needle <+: x :: (rest ++ more) := here.trans (prefix_append (x :: rest) more)
      rw [if_pos still]
    · obtain ⟨j,later,rfl⟩ := Option.map_eq_some_iff.mp found
      have fits := (find_some later).2
      have absent : ¬ needle <+: x :: (rest ++ more) := by
        intro inside
        refine here (prefix_of_prefix_length_le inside (prefix_append (x :: rest) more) ?_)
        rw [length_cons]
        omega
      rw [if_neg absent,ih later]
      rfl

theorem scan_found (found : scan needle text = .found before after) :
    ∃ i, find needle text = some i ∧ before = text.take i ∧ after = text.drop (i + needle.length) := by
  unfold scan at found
  cases place : find needle text with
  | none =>
    rw [place] at found
    dsimp only at found
    split at found <;> cases found
  | some i =>
    rw [place] at found
    cases found
    exact ⟨i,rfl,rfl,rfl⟩

theorem scan_held (held : scan needle text = .held before rest) :
    find needle text = none ∧ before ++ rest = text := by
  unfold scan at held
  cases place : find needle text with
  | some =>
    rw [place] at held
    cases held
  | none =>
    rw [place] at held
    dsimp only at held
    split at held <;> cases held
    · exact ⟨rfl,take_append_drop _ _⟩
    · exact ⟨rfl,append_nil _⟩

theorem scan_append_found (found : scan needle text = .found before after) (more : List α) :
    scan needle (text ++ more) = .found before (after ++ more) := by
  obtain ⟨i,place,rfl,rfl⟩ := scan_found found
  have fits := (find_some place).2
  rw [scan,find_append place more]
  dsimp only
  rw [take_append_of_le_length (by omega),drop_append_of_le_length fits]

theorem scan_found_length (found : scan needle text = .found before after)
    (some_needle : needle ≠ []) : after.length < text.length := by
  obtain ⟨i,place,_,rfl⟩ := scan_found found
  have fits := (find_some place).2
  have long := List.length_pos_iff.mpr some_needle
  rw [length_drop]
  omega

/-- The needle begins with what does not occur in it again. -/
def Headed (needle : List α) : Prop := ∃ a rest, needle = a :: rest ∧ a ∉ rest

omit [DecidableEq α] in
theorem Headed.ne_nil (headed : Headed needle) : needle ≠ [] := by
  obtain ⟨a,rest,rfl,_⟩ := headed
  exact cons_ne_nil a rest

theorem scan_nil (some_needle : needle ≠ []) : scan needle [] = .held [] [] := by
  simp [scan,find,tail_start,some_needle]

theorem scan_cons (later : ¬ needle <+: x :: text) (begins : ¬ x :: text <+: needle) :
    scan needle (x :: text) = (scan needle text).prepend [x] := by
  have place : find needle (x :: text) = (find needle text).map (· + 1) := by rw [find,if_neg later]
  rw [scan,scan,place]
  cases find needle text with
  | some i => simp [Scan.prepend,Nat.add_right_comm i 1]
  | none =>
    simp only [Option.map_none,tail_start]
    cases tail_start needle text with
    | some => simp [Scan.prepend]
    | none => simp [Scan.prepend,begins]

theorem Headed.no_second (headed : Headed needle)
    (start : tail_start needle rest = some i) : ¬ x :: rest <+: needle := by
  obtain ⟨a,_,rfl,once⟩ := headed
  obtain ⟨beginning,inside⟩ := tail_start_some start
  intro first
  obtain ⟨_,inner⟩ := List.cons_prefix_cons.mp first
  rw [drop_eq_getElem_cons inside] at beginning
  obtain ⟨head,_⟩ := List.cons_prefix_cons.mp beginning
  exact once (inner.subset (head ▸ getElem_mem inside))

theorem scan_append_held (headed : Headed needle) (held : scan needle text = .held before rest)
    (more : List α) : scan needle (text ++ more) = (scan needle (rest ++ more)).prepend before := by
  induction text generalizing before rest with
  | nil =>
    rw [scan_nil headed.ne_nil] at held
    cases held
    simp
  | cons x tail ih =>
    have absent : find needle (x :: tail) = none := by
      cases place : find needle (x :: tail) with
      | none => rfl
      | some =>
        rw [scan,place] at held
        cases held
    rw [scan,absent] at held
    have here : ¬ needle <+: x :: tail := find_none_drop (i := 0) absent
    have later : find needle tail = none := by
      unfold find at absent
      rw [if_neg here] at absent
      exact Option.map_eq_none_iff.mp absent
    -- once the text so far is no beginning of the needle, the first element is passed over
    have passed (begins : ¬ x :: tail <+: needle) :
        scan needle (x :: (tail ++ more)) = (scan needle (tail ++ more)).prepend [x] := by
      refine scan_cons (fun inside => ?_) fun inside => ?_
      · rcases prefix_or_prefix_of_prefix inside (prefix_append (x :: tail) more) with first | first
        · exact here first
        · exact begins first
      · exact begins ((prefix_append (x :: tail) more).trans inside)
    cases start : tail_start needle tail with
    | some i =>
      simp only [tail_start,start] at held
      cases held
      have same : scan needle tail = .held (tail.take i) (tail.drop i) := by rw [scan,later,start]
      rw [cons_append,passed (headed.no_second start),ih same,Scan.prepend_prepend]
      rfl
    | none =>
      by_cases begins : x :: tail <+: needle
      · simp only [tail_start,start,if_pos begins] at held
        cases held
        simp
      · simp only [tail_start,start,if_neg begins] at held
        cases held
        have same : scan needle tail = .held tail [] := by rw [scan,later,start]
        rw [cons_append,passed begins,ih same,Scan.prepend_prepend]
        rfl

theorem Headed.free_le (headed : Headed needle) (absent : find needle text = none)
    (found : find needle (text ++ more) = some i) : free needle text ≤ i := by
  have whole := scan_append_held headed (scan_free absent) more
  rw [scan,found] at whole
  cases later : scan needle (text.drop (free needle text) ++ more) with
  | held =>
    rw [later] at whole
    cases whole
  | found =>
    rw [later] at whole
    have lengths := congrArg List.length (Scan.found.inj whole).1
    have bound := length_take_le i (text ++ more)
    have short := @Delimiter.free_le _ _ needle text
    rw [length_append,length_take_of_le short] at lengths
    omega

end

end Ferrin.Delimiter
