import Mathlib.Data.List.Basic

/-!
Lists cut into chunks, and results that come in any order and are put by their
places.
-/
namespace Ferrin.Chunks
open List

variable {α β : Type}

/-- The entries in chunks: a chunk is closed when it is full for the entry that comes next. -/
def cut (full : List α → α → Bool) : (current : List α) → List α → List (List α)
  | current,[] => if current.isEmpty then [] else [current]
  | current,a :: rest =>
    if !current.isEmpty && full current a then current :: cut full [a] rest else cut full (current ++ [a]) rest

theorem flatten_cut (full : List α → α → Bool) (l : List α) :
    ∀ current : List α, (cut full current l).flatten = current ++ l := by
  induction l with
  | nil =>
    intro current
    cases current <;> simp [cut]
  | cons _ _ ih =>
    intro current
    rw [cut]
    split
    · rw [flatten_cons,ih]
      rfl
    · rw [ih,append_assoc]
      rfl

theorem all_cut {full : List α → α → Bool} {P : List α → Prop} (single : ∀ a, P [a])
    (more : ∀ current a, current ≠ [] → P current → full current a = false → P (current ++ [a])) (l : List α) :
    ∀ current : List α, (current = [] ∨ P current) → ∀ chunk ∈ cut full current l, chunk ≠ [] ∧ P chunk := by
  induction l with
  | nil =>
    intro current sofar chunk mem
    rw [cut] at mem
    split at mem
    · cases mem
    · rename_i some_left
      rw [mem_singleton] at mem
      subst mem
      have nonempty : chunk ≠ [] := by simpa using some_left
      exact ⟨nonempty,sofar.resolve_left nonempty⟩
  | cons a _ ih =>
    intro current sofar chunk mem
    rw [cut] at mem
    split at mem
    · rename_i closed
      rcases List.mem_cons.mp mem with rfl | later
      · have nonempty : chunk ≠ [] := by
          intro none_left
          simp [none_left] at closed
        exact ⟨nonempty,sofar.resolve_left nonempty⟩
      · exact ih [a] (.inr (single a)) chunk later
    · rename_i stays
      refine ih (current ++ [a]) (.inr ?_) chunk mem
      rcases sofar with rfl | holds
      · exact single a
      · by_cases nonempty : current = []
        · subst nonempty
          exact single a
        · exact more current a nonempty holds (by simpa [nonempty] using stays)

/-- A list in chunks of `n`, the last one maybe shorter. -/
def chunks (n : Nat) (l : List α) : List (List α) := cut (fun current _ => decide (current.length ≥ n)) [] l

theorem flatten_chunks (n : Nat) (l : List α) : (chunks n l).flatten = l := flatten_cut _ l []

def put (slots : List (Option β)) (entry : Nat × β) : List (Option β) := slots.set entry.1 (some entry.2)

theorem put_comm {first second : Nat × β} (apart : first.1 ≠ second.1) (slots : List (Option β)) :
    put (put slots first) second = put (put slots second) first := List.set_comm _ _ apart

theorem foldl_put_perm {done other : List (Nat × β)} (perm : done.Perm other) :
    (done.map Prod.fst).Nodup → ∀ slots : List (Option β), done.foldl put slots = other.foldl put slots := by
  induction perm with
  | nil => exact fun _ _ => rfl
  | cons _ _ ih =>
    intro distinct slots
    exact ih (List.nodup_cons.mp distinct).2 _
  | swap first second =>
    intro distinct slots
    rw [foldl_cons,foldl_cons,foldl_cons,foldl_cons]
    have apart : second.1 ≠ first.1 := by
      intro same
      simp [same] at distinct
    rw [put_comm apart]
  | trans one _ ih ih' =>
    intro distinct slots
    exact (ih distinct slots).trans (ih' ((one.map Prod.fst).nodup_iff.mp distinct) slots)

theorem foldl_put_from (l : List β) : ∀ before : List (Option β),
    (l.mapIdx fun n a => (n + before.length,a)).foldl put (before ++ List.replicate l.length none) =
      before ++ l.map some := by
  induction l with
  | nil => intro before; rfl
  | cons a rest ih =>
    intro before
    have shifted : (rest.mapIdx fun n b => (n + 1 + before.length,b)) =
        rest.mapIdx fun n b => (n + (before ++ [some a]).length,b) := by
      congr
      funext n b
      simp only [length_append,length_singleton]
      congr 1
      omega
    have first : put (before ++ replicate (a :: rest).length none) (0 + before.length,a) =
        (before ++ [some a]) ++ replicate rest.length none := by
      rw [put,Nat.zero_add,set_append_right _ _ (Nat.le_refl _),Nat.sub_self,length_cons,
        replicate_succ,set_cons_zero,append_assoc]
      rfl
    rw [mapIdx_cons,foldl_cons,shifted,first,ih]
    simp

theorem foldl_put_all (l : List β) :
    (l.mapIdx fun n a => (n,a)).foldl put (List.replicate l.length none) = l.map some := foldl_put_from l []

theorem zip_flatten {chunks : List (List α)} {others : List (List β)}
    (even : List.Forall₂ (fun chunk other => chunk.length = other.length) chunks others) :
    chunks.flatten.zip others.flatten = ((chunks.zip others).map fun pair => pair.1.zip pair.2).flatten := by
  induction even with
  | nil => rfl
  | cons same _ ih => rw [flatten_cons,flatten_cons,zip_append same,ih]; rfl

end Ferrin.Chunks
