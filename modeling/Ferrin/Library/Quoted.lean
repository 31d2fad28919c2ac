import Mathlib.Data.List.Basic

/-!
Quoted texts, in which an escape stands before a quote or an escape, and may
stand before anything else.
-/
namespace Ferrin.Quoted
open List

section
variable {α : Type} {quote escape : α}

inductive Spells (quote escape : α) : List α → List α → Prop where
  | nil : Spells quote escape [] []
  | plain {a : α} {text written : List α} (not_quote : a ≠ quote) (not_escape : a ≠ escape)
      (rest : Spells quote escape text written) : Spells quote escape (a :: text) (a :: written)
  | escaped {a : α} {text written : List α} (rest : Spells quote escape text written) :
      Spells quote escape (a :: text) (escape :: a :: written)

variable [DecidableEq α]

def read (quote escape : α) : List α → Option (List α × List α)
  | [] => none
  | a :: rest =>
    if a = quote then some ([],rest)
    else if a = escape then
      match rest with
      | [] => none
      | b :: rest => (read quote escape rest).map fun found => (b :: found.1,found.2)
    else (read quote escape rest).map fun found => (a :: found.1,found.2)

/-- The text up to the closing quote or the end, and what comes after. An escape at the end is dropped. -/
def readOpen (quote escape : α) : List α → List α × List α
  | [] => ([],[])
  | a :: rest =>
    if a = quote then ([],rest)
    else if a = escape then
      match rest with
      | [] => ([],[])
      | b :: rest => (b :: (readOpen quote escape rest).1,(readOpen quote escape rest).2)
    else (a :: (readOpen quote escape rest).1,(readOpen quote escape rest).2)

def write (quote escape : α) (text : List α) : List α :=
  text.flatMap fun a => if a = escape ∨ a = quote then [escape,a] else [a]

theorem spells_write (text : List α) : Spells quote escape text (write quote escape text) := by
  induction text with
  | nil => exact .nil
  | cons a _ ih =>
    rw [write,flatMap_cons]
    by_cases special : a = escape ∨ a = quote
    · rw [if_pos special]
      exact .escaped ih
    · rw [if_neg special]
      exact .plain (fun same => special (.inr same)) (fun same => special (.inl same)) ih

theorem read_quote (rest : List α) : read quote escape (quote :: rest) = some ([],rest) := by
  rw [read.eq_def]
  exact if_pos rfl

theorem read_escape (apart : escape ≠ quote) (a : α) (rest : List α) :
    read quote escape (escape :: a :: rest) = (read quote escape rest).map fun found => (a :: found.1,found.2) := by
  rw [read.eq_def]
  exact (if_neg apart).trans (if_pos rfl)

theorem read_plain {a : α} (not_quote : a ≠ quote) (not_escape : a ≠ escape) (rest : List α) :
    read quote escape (a :: rest) = (read quote escape rest).map fun found => (a :: found.1,found.2) := by
  rw [read.eq_def]
  exact (if_neg not_quote).trans (if_neg not_escape)

theorem read_spells (apart : escape ≠ quote) {text written : List α} (spells : Spells quote escape text written)
    (rest : List α) : read quote escape (written ++ quote :: rest) = some (text,rest) := by
  induction spells with
  | nil => exact read_quote rest
  | plain not_quote not_escape _ ih =>
    rw [cons_append,read_plain not_quote not_escape,ih]
    rfl
  | escaped _ ih =>
    rw [cons_append,cons_append,read_escape apart,ih]
    rfl

theorem readOpen_of_read : ∀ {text : List α} {found : List α × List α},
    read quote escape text = some found → readOpen quote escape text = found
  | [],_,reads => by cases reads
  | a :: rest,found,reads => by
    rw [read.eq_def] at reads
    rw [readOpen.eq_def]
    dsimp only at reads ⊢
    split_ifs at reads ⊢ with closes escapes
    · exact Option.some.inj reads
    · cases rest with
      | nil => cases reads
      | cons =>
        obtain ⟨tail,later,rfl⟩ := Option.map_eq_some_iff.mp reads
        dsimp only
        rw [readOpen_of_read later]
    · obtain ⟨_,later,rfl⟩ := Option.map_eq_some_iff.mp reads
      rw [readOpen_of_read later]

theorem readOpen_length : ∀ text : List α, (readOpen quote escape text).2.length ≤ text.length
  | [] => Nat.le_refl _
  | a :: rest => by
    rw [readOpen.eq_def]
    dsimp only
    split_ifs with closes escapes
    · exact Nat.le_succ _
    · cases rest with
      | nil => exact Nat.zero_le _
      | cons b rest =>
        have later := readOpen_length rest
        rw [length_cons,length_cons]
        dsimp only
        omega
    · exact Nat.le_succ_of_le (readOpen_length rest)

theorem read_write (apart : escape ≠ quote) (text rest : List α) :
    read quote escape (write quote escape text ++ quote :: rest) = some (text,rest) :=
  read_spells apart (spells_write text) rest

end

end Ferrin.Quoted
