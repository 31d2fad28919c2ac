import Ferrin.Library.Delimiter

/-!
Texts split at every place of a delimiter. Parts that are joined by a delimiter
that does not overlap itself come apart again when none of them has it.
-/
namespace Ferrin.Splitting
open Delimiter List

variable {α : Type}

/-- No end of the delimiter is also its beginning. -/
def Borderless (needle : List α) : Prop := ∀ border, border <+: needle → border <:+ needle → border = [] ∨ border = needle

theorem borderless_of_headed {needle : List α} (headed : Headed needle) : Borderless needle := by
  obtain ⟨a,_,rfl,absent⟩ := headed
  intro border beginning ending
  cases border with
  | nil => exact .inl rfl
  | cons =>
    obtain ⟨same,_⟩ := List.cons_prefix_cons.mp beginning
    subst same
    rcases List.suffix_cons_iff.mp ending with whole | within
    · exact .inr whole
    · exact absurd (within.subset mem_cons_self) absent

variable [DecidableEq α] {needle : List α}

theorem find_of_prefix {text : List α} (here : needle <+: text) : find needle text = some 0 := by
  cases text with
  | nil => rw [find,if_pos (List.prefix_nil.mp here)]
  | cons => rw [find,if_pos here]

theorem find_part (borderless : Borderless needle) (some_needle : needle ≠ []) :
    ∀ {part : List α}, ¬ needle <:+: part → ∀ rest : List α,
      find needle (part ++ needle ++ rest) = some part.length
  | [],_,rest => by rw [List.nil_append]; exact find_of_prefix (List.prefix_append _ _)
  | a :: part,absent,rest => by
    have not_here : ¬ needle <+: a :: (part ++ needle ++ rest) := by
      intro here
      obtain ⟨more,whole⟩ := here
      have cut : needle ++ more = (a :: part) ++ (needle ++ rest) := by simp [whole]
      rcases List.append_eq_append_iff.mp cut with ⟨more_part,inside,_⟩ | ⟨overlap,same,beginning⟩
      · exact absent (inside ▸ (prefix_append needle more_part).isInfix)
      · have short : overlap <+: needle ++ rest := ⟨more,beginning.symm⟩
        have longer : overlap.length ≤ needle.length := by
          rw [same,length_append]
          omega
        have border : overlap <+: needle := prefix_of_prefix_length_le short (prefix_append _ _) longer
        have ends : overlap <:+ needle := ⟨a :: part,same.symm⟩
        rcases borderless overlap border ends with none_left | all
        · rw [none_left,append_nil] at same
          exact absent (same ▸ infix_rfl)
        · have lengths := congrArg List.length same
          rw [all,length_append,length_cons] at lengths
          omega
    have later : ¬ needle <:+: part := fun within => absent (within.trans (suffix_cons a part).isInfix)
    rw [cons_append,cons_append,find,if_neg not_here,find_part borderless some_needle later rest]
    rfl

theorem find_absent {part : List α} (absent : ¬ needle <:+: part) : find needle part = none := by
  cases found : find needle part with
  | none => rfl
  | some i =>
    obtain ⟨here,_⟩ := find_some found
    exact absurd (here.isInfix.trans (drop_suffix i part).isInfix) absent

/-- The parts between the delimiters, found from the left. -/
def splitFrom (needle : List α) : (fuel : Nat) → List α → List (List α)
  | 0,text => [text]
  | fuel + 1,text =>
    match find needle text with
    | none => [text]
    | some i => text.take i :: splitFrom needle fuel (text.drop (i + needle.length))

def split (needle text : List α) : List (List α) := splitFrom needle text.length text

def join (needle : List α) : List α → List (List α) → List α
  | first,[] => first
  | first,next :: rest => first ++ needle ++ join needle next rest

theorem splitFrom_join (borderless : Borderless needle) (some_needle : needle ≠ []) (rest : List (List α)) :
    ∀ (first : List α) (fuel : Nat), (∀ part ∈ first :: rest, ¬ needle <:+: part) → rest.length ≤ fuel →
      splitFrom needle fuel (join needle first rest) = first :: rest := by
  induction rest with
  | nil =>
    intro first fuel absent _
    cases fuel with
    | zero => rfl
    | succ => rw [join,splitFrom,find_absent (absent first (by simp))]
  | cons next rest ih =>
    intro first fuel absent enough
    cases fuel with
    | zero => simp at enough
    | succ fuel =>
      have place := find_part borderless some_needle (absent first (by simp)) (join needle next rest)
      have before : (first ++ needle ++ join needle next rest).take first.length = first := by simp
      have after : (first ++ needle ++ join needle next rest).drop (first.length + needle.length) =
          join needle next rest := by
        rw [← length_append,drop_left]
      rw [join,splitFrom,place]
      simp only [before,after]
      rw [ih next fuel (fun part mem => absent part (by simp [mem])) (by simpa using enough)]

omit [DecidableEq α] in
theorem length_join (some_needle : needle ≠ []) (rest : List (List α)) :
    ∀ first : List α, rest.length ≤ (join needle first rest).length := by
  induction rest with
  | nil => exact fun _ => Nat.zero_le _
  | cons next _ ih =>
    intro first
    have more := ih next
    have long := List.length_pos_iff.mpr some_needle
    rw [join,length_append,length_append,length_cons]
    omega

theorem split_join (borderless : Borderless needle) (some_needle : needle ≠ []) {first : List α} {rest : List (List α)}
    (absent : ∀ part ∈ first :: rest, ¬ needle <:+: part) : split needle (join needle first rest) = first :: rest :=
  splitFrom_join borderless some_needle rest first _ absent (length_join some_needle rest first)

end Ferrin.Splitting
