import Mathlib.Data.List.Forall2

/-!
What a computation yields, in any monad and wherever it starts.
-/
namespace Ferrin.Library
open List

variable {m : Type → Type} [Monad m] {α β : Type} {P : α → Prop} {Q : β → Prop}

/-- Every result has `P`. -/
def Yields (P : α → Prop) (x : m α) : Prop := ∃ marked : m {a // P a}, Subtype.val <$> marked = x

namespace Yields

theorem id {x : Id α} (yields : Yields P x) : P x := by
  obtain ⟨marked,rfl⟩ := yields
  exact Subtype.property marked

theorem state {σ : Type} {x : StateM σ α} (yields : Yields P x) (s : σ) : P (x.run s).1 := by
  obtain ⟨marked,rfl⟩ := yields
  exact (marked.run s).1.property

variable [LawfulMonad m]

theorem pure {a : α} (holds : P a) : Yields P (pure a : m α) := ⟨Pure.pure ⟨a,holds⟩,by simp⟩

theorem bind {x : m α} {f : α → m β} (first : Yields P x) (rest : ∀ a, P a → Yields Q (f a)) : Yields Q (x >>= f) := by
  obtain ⟨marked,rfl⟩ := first
  choose next spelled using rest
  refine ⟨marked >>= fun a => next a.1 a.2,?_⟩
  rw [map_bind,bind_map_left]
  exact congrArg (marked >>= ·) (funext fun a => spelled a.1 a.2)

theorem map {x : m α} {f : α → β} (first : Yields P x) (next : ∀ a, P a → Q (f a)) : Yields Q (f <$> x) := by
  rw [map_eq_pure_bind]
  exact first.bind fun a holds => .pure (next a holds)

theorem mono {P' : α → Prop} {x : m α} (first : Yields P x) (weaker : ∀ a, P a → P' a) : Yields P' x := by
  rw [← id_map x]
  exact first.map weaker

theorem trivial (x : m α) : Yields (fun _ => True) x :=
  ⟨(fun a => ⟨a,True.intro⟩) <$> x,by simp⟩

theorem mapM {R : α → β → Prop} {f : α → m β} {l : List α} (each : ∀ a ∈ l, Yields (R a) (f a)) :
    Yields (List.Forall₂ R l) (l.mapM f) := by
  induction l with
  | nil => exact .pure .nil
  | cons a _ ih =>
    rw [mapM_cons]
    refine (each a mem_cons_self).bind fun b first => ?_
    refine (ih fun x mem => each x (mem_cons_of_mem a mem)).bind fun bs others => ?_
    exact .pure (.cons first others)

theorem mapM_to {f : α → m β} {g : α → β} {l : List α} (each : ∀ a ∈ l, Yields (· = g a) (f a)) :
    Yields (· = l.map g) (l.mapM f) := by
  induction l with
  | nil => exact .pure rfl
  | cons a _ ih =>
    rw [mapM_cons]
    refine (each a mem_cons_self).bind fun b first => ?_
    refine (ih fun x mem => each x (mem_cons_of_mem a mem)).bind fun bs others => .pure ?_
    rw [first,others,map_cons]

end Yields

theorem mapM_eq_pure [LawfulMonad m] {f : α → m α} {l : List α} (each : ∀ a ∈ l, f a = pure a) : l.mapM f = pure l := by
  induction l with
  | nil => rfl
  | cons a _ ih =>
    rw [mapM_cons,each a mem_cons_self,pure_bind,ih fun x mem => each x (mem_cons_of_mem a mem),
      pure_bind]

theorem mapM_congr [LawfulMonad m] {f g : α → m β} {l : List α} (each : ∀ a ∈ l, f a = g a) : l.mapM f = l.mapM g := by
  induction l with
  | nil => rfl
  | cons a _ ih =>
    rw [mapM_cons,mapM_cons,each a mem_cons_self,ih fun x mem => each x (mem_cons_of_mem a mem)]

end Ferrin.Library
