import Mathlib.Data.List.DropRight

/-!
Trimming a list at its ends, and lists that end with a mark before what is
trimmed.
-/
namespace Ferrin.Trim
open List
variable {α : Type} {p : α → Bool}

def trim (p : α → Bool) (xs : List α) : List α := (xs.dropWhile p).rdropWhile p

/-- Nothing but what is trimmed. -/
def Blank (p : α → Bool) (xs : List α) : Prop := ∀ x ∈ xs, p x

instance (p : α → Bool) (xs : List α) : Decidable (Blank p xs) := inferInstanceAs (Decidable (∀ x ∈ xs, p x))

/-- Something, and nothing of what is trimmed. -/
def Solid (p : α → Bool) (xs : List α) : Prop := xs ≠ [] ∧ ∀ x ∈ xs, p x = false

variable {xs ys blanks mark : List α}

theorem Solid.of_all (filled : xs ≠ []) (all : xs.all (fun x => !p x) = true) : Solid p xs :=
  ⟨filled,fun x member => by simpa using List.all_eq_true.mp all x member⟩

theorem rdropWhile_append : (xs ++ ys).rdropWhile p =
    if ys.rdropWhile p = [] then xs.rdropWhile p else xs ++ ys.rdropWhile p := by
  simp only [List.rdropWhile,reverse_append,dropWhile_append,List.isEmpty_iff,reverse_eq_nil_iff]
  split_ifs <;> simp

theorem dropWhile_blank (blank : Blank p blanks) : (blanks ++ xs).dropWhile p = xs.dropWhile p := by
  have gone : blanks.dropWhile p = [] := List.dropWhile_eq_nil_iff.mpr blank
  simp [dropWhile_append,gone]

theorem rdropWhile_blank (blank : Blank p blanks) : (xs ++ blanks).rdropWhile p = xs.rdropWhile p := by
  rw [rdropWhile_append,if_pos (List.rdropWhile_eq_nil_iff.mpr blank)]

theorem blank_rtakeWhile : Blank p (xs.rtakeWhile p) := fun _ mem => List.mem_rtakeWhile_imp mem

theorem rdropWhile_solid (solid : Solid p mark) : (xs ++ mark ++ ys).rdropWhile p = xs ++ mark ++ ys.rdropWhile p := by
  obtain ⟨some_mark,kept⟩ := solid
  have last : mark.rdropWhile p = mark :=
    List.rdropWhile_eq_self_iff.mpr fun there => by simp [kept _ (getLast_mem there)]
  rw [rdropWhile_append,rdropWhile_append,last,if_neg some_mark]
  split_ifs with gone
  · rw [gone,append_nil]
  · rfl

theorem dropWhile_solid (solid : Solid p mark) : (mark ++ xs).dropWhile p = mark ++ xs := by
  obtain ⟨some_mark,kept⟩ := solid
  cases mark with
  | nil => exact absurd rfl some_mark
  | cons a => rw [cons_append,dropWhile_cons_of_neg (by simp [kept a mem_cons_self])]

theorem takeWhile_whole (kept : ∀ x ∈ mark, p x = false) (stops : ∀ x ∈ xs.head?, p x) :
    (mark ++ xs).takeWhile (!p ·) = mark := by
  rw [takeWhile_append_of_pos (fun x mem => by simp [kept x mem])]
  cases xs with
  | nil => simp
  | cons x => rw [takeWhile_cons_of_neg (by simp [stops x rfl]),append_nil]

theorem dropWhile_whole (kept : ∀ x ∈ mark, p x = false) (stops : ∀ x ∈ xs.head?, p x) :
    (mark ++ xs).dropWhile (!p ·) = xs := by
  rw [dropWhile_append_of_pos (fun x mem => by simp [kept x mem])]
  cases xs with
  | nil => simp
  | cons x => rw [dropWhile_cons_of_neg (by simp [stops x rfl])]

theorem trim_blank_left (blank : Blank p blanks) : trim p (blanks ++ xs) = trim p xs := by
  rw [trim,trim,dropWhile_blank blank]

theorem trim_blank_right (blank : Blank p blanks) : trim p (xs ++ blanks) = trim p xs := by
  unfold trim
  by_cases gone : xs.dropWhile p = []
  · have nothing : blanks.dropWhile p = [] := List.dropWhile_eq_nil_iff.mpr blank
    simp [dropWhile_append,gone,nothing]
  · rw [dropWhile_append,if_neg (by simpa using gone),rdropWhile_blank blank]

theorem trim_dropWhile : trim p (xs.dropWhile p) = trim p xs := by
  have split := @takeWhile_append_dropWhile α p xs
  have blank : Blank p (xs.takeWhile p) := fun _ mem => mem_takeWhile_imp mem
  rw [← trim_blank_left blank,split]

theorem trim_append_rdropWhile : trim p (xs ++ ys.rdropWhile p) = trim p (xs ++ ys) := by
  have split := @rdropWhile_append_rtakeWhile α p ys
  rw [← trim_blank_right blank_rtakeWhile,append_assoc,split]

@[simp] theorem trim_trim : trim p (trim p xs) = trim p xs := by
  have once := @trim_append_rdropWhile _ p [] (xs.dropWhile p)
  rw [nil_append,nil_append,trim_dropWhile] at once
  exact once

theorem trim_solid (solid : Solid p mark) : trim p (mark ++ xs) = mark ++ xs.rdropWhile p := by
  rw [trim,dropWhile_solid solid]
  exact @rdropWhile_solid α p [] xs mark solid

theorem trim_length : (trim p xs).length ≤ (xs.rdropWhile p).length := by
  have split := @takeWhile_append_dropWhile α p xs
  have blank : Blank p (xs.takeWhile p) := fun _ mem => mem_takeWhile_imp mem
  have whole : xs.rdropWhile p = (xs.takeWhile p ++ xs.dropWhile p).rdropWhile p := by rw [split]
  rw [whole,rdropWhile_append,trim]
  split_ifs with gone
  · simp [gone]
  · simp

theorem rdropWhile_length_append : (ys.rdropWhile p).length ≤ ((xs ++ ys).rdropWhile p).length := by
  rw [rdropWhile_append]
  split_ifs with gone
  · simp [gone]
  · simp

/-! ### A mark before what is trimmed -/

structure Ends (p : α → Bool) (mark xs body blanks : List α) : Prop where
  split : xs = body ++ mark ++ blanks
  blank : Blank p blanks

variable {body : List α}

theorem Ends.rdropWhile (ends : Ends p mark xs body blanks) (solid : Solid p mark) : xs.rdropWhile p = body ++ mark := by
  rw [ends.split,rdropWhile_solid solid,List.rdropWhile_eq_nil_iff.mpr ends.blank,append_nil]

theorem ends_iff (solid : Solid p mark) :
    mark <:+ xs.rdropWhile p ↔ ∃ body blanks, Ends p mark xs body blanks := by
  constructor
  · rintro ⟨body,same⟩
    refine ⟨body,xs.rtakeWhile p,?_,blank_rtakeWhile⟩
    rw [same,rdropWhile_append_rtakeWhile]
  · rintro ⟨body,_,ends⟩
    rw [ends.rdropWhile solid]
    exact suffix_append body mark

theorem Ends.body_of_blank {front : List α} (solid : Solid p mark) (blank : Blank p front)
    (ends : Ends p mark (front ++ xs) body blanks) : ∃ rest, body = front ++ rest ∧ Ends p mark xs rest blanks := by
  have same := ends.split
  rw [append_assoc,append_eq_append_iff] at same
  rcases same with ⟨rest,front_body,tail⟩ | ⟨excess,front_body,tail⟩
  · exact ⟨rest,front_body,by rw [tail,append_assoc],ends.blank⟩
  · cases excess with
    | nil =>
      refine ⟨[],by simpa using front_body.symm,?_,ends.blank⟩
      simpa using tail.symm
    | cons x =>
      obtain ⟨some_mark,kept⟩ := solid
      obtain ⟨y,_,rfl⟩ := exists_cons_of_ne_nil some_mark
      have trimmed : p x := blank x (by simp [front_body])
      have first : y = x := by simpa using congrArg head? tail
      rw [← first,kept y mem_cons_self] at trimmed
      cases trimmed

end Ferrin.Trim
