import Mathlib.Data.List.Forall2

/-!
Computations that may fail, and how a success of the whole comes from
successes of the steps.
-/
namespace Ferrin.Result
open List

variable {ε α β : Type}

variable {x result : Except ε α} {f : α → Except ε β} {b : β} {e : ε} {l : List α} {m : List β} {R : α → β → Prop}
  {a : α} {σ : Type} {s : σ}

theorem bind_ok : (x >>= f) = .ok b ↔ ∃ a, x = .ok a ∧ f a = .ok b := by
  cases x with
  | error => simp [bind,Except.bind]
  | ok => simp [bind,Except.bind]

theorem bind_error : (x >>= f) = .error e ↔ x = .error e ∨ ∃ a, x = .ok a ∧ f a = .error e := by
  cases x with
  | error => simp [bind,Except.bind]
  | ok => simp [bind,Except.bind]

theorem map_ok {f : α → β} : (f <$> x) = .ok b ↔ ∃ a, x = .ok a ∧ f a = b := by
  cases x with
  | error => simp [Functor.map,Except.map]
  | ok => simp [Functor.map,Except.map]

theorem mapM_ok : l.mapM f = .ok m ↔ List.Forall₂ (fun a b => f a = .ok b) l m := by
  induction l generalizing m with
  | nil => cases m <;> simp [pure,Except.pure]
  | cons a rest ih =>
    rw [mapM_cons]
    constructor
    · intro ok
      obtain ⟨b,first,ok⟩ := bind_ok.mp ok
      obtain ⟨_,others,ok⟩ := bind_ok.mp ok
      cases ok
      exact .cons first (ih.mp others)
    · rintro (_ | ⟨first,others⟩)
      rw [first,show rest.mapM f = .ok _ from ih.mpr others]
      rfl

theorem each_left (each : List.Forall₂ R l m) (mem : a ∈ l) : ∃ b ∈ m, R a b := by
  induction each with
  | nil => cases mem
  | cons first _ ih =>
    rcases List.mem_cons.mp mem with rfl | later
    · exact ⟨_,mem_cons_self,first⟩
    · obtain ⟨b,here,same⟩ := ih later
      exact ⟨b,mem_cons_of_mem _ here,same⟩

theorem each_right (each : List.Forall₂ R l m) (mem : b ∈ m) : ∃ a ∈ l, R a b := each_left each.flip mem

theorem mapM_ok_of_all (all : ∀ a ∈ l, ∃ b, f a = .ok b) : ∃ m, l.mapM f = .ok m := by
  induction l with
  | nil => exact ⟨[],rfl⟩
  | cons a _ ih =>
    obtain ⟨b,first⟩ := all a mem_cons_self
    obtain ⟨bs,others⟩ := ih fun x mem => all x (mem_cons_of_mem a mem)
    exact ⟨b :: bs,mapM_ok.mpr (.cons first (mapM_ok.mp others))⟩

theorem mapM_ok_map : l.mapM f = .ok m ↔ l.map f = m.map .ok := by
  rw [mapM_ok]
  constructor
  · intro each
    induction each with
    | nil => rfl
    | cons first _ ih => rw [map_cons,map_cons,first,ih]
  · intro same
    induction l generalizing m with
    | nil =>
      cases m with
      | nil => exact .nil
      | cons => cases same
    | cons _ _ ih =>
      cases m with
      | nil => cases same
      | cons =>
        obtain ⟨first,later⟩ := List.cons.inj same
        exact .cons first (ih later)

theorem mapM_eq_toOption (all : ∀ a ∈ l, ∃ b, f a = .ok b) :
    l.mapM f = .ok (l.filterMap fun a => (f a).toOption) := by
  induction l with
  | nil => rfl
  | cons a _ ih =>
    obtain ⟨b,first⟩ := all a mem_cons_self
    rw [mapM_cons,first,ih fun x mem => all x (mem_cons_of_mem a mem)]
    simp [first,Except.toOption,bind,Except.bind,pure,Except.pure]

theorem foldlM_step {f : σ → α → Except ε σ} {t : σ} (stepped : f s a = .ok t) :
    (a :: l).foldlM f s = l.foldlM f t := by
  rw [foldlM_cons,stepped]
  rfl

theorem foldlM_invariant {P : σ → Prop} {f : σ → α → Except ε σ}
    (kept : ∀ s, ∀ a ∈ l, ∀ s', P s → f s a = .ok s' → P s') {s' : σ} (holds : P s) (done : l.foldlM f s = .ok s') :
    P s' := by
  induction l generalizing s with
  | nil =>
    cases done
    exact holds
  | cons a _ ih =>
    rw [foldlM_cons] at done
    obtain ⟨next,first,done⟩ := bind_ok.mp done
    exact ih (fun s b mem => kept s b (mem_cons_of_mem a mem)) (kept s a mem_cons_self next holds first) done

theorem foldlM_each {f : σ → α → Except ε σ} {s' : σ} (done : l.foldlM f s = .ok s') (mem : a ∈ l) :
    ∃ t t', f t a = .ok t' := by
  induction l generalizing s with
  | nil => cases mem
  | cons b _ ih =>
    rw [foldlM_cons] at done
    obtain ⟨next,first,done⟩ := bind_ok.mp done
    rcases List.mem_cons.mp mem with rfl | later
    · exact ⟨s,next,first⟩
    · exact ih done later

theorem exists_ok (isOk : result.isOk = true) : ∃ a, result = .ok a := by
  cases result with
  | error => cases isOk
  | ok a => exact ⟨a,rfl⟩

theorem toOption_any {p : α → Bool} : result.toOption.any p = true ↔ ∃ a, result = .ok a ∧ p a = true := by
  cases result <;> simp [Except.toOption]

def errorOf : Except ε α → Option ε
  | .error e => some e
  | .ok _ => none

@[simp] theorem errorOf_error (e : ε) : errorOf (.error e : Except ε α) = some e := rfl

@[simp] theorem errorOf_ok (a : α) : errorOf (.ok a : Except ε α) = none := rfl

theorem errorOf_eq_some : errorOf x = some e ↔ x = .error e := by
  cases x <;> simp

theorem errorOf_eq_none : errorOf x = none ↔ ∃ a, x = .ok a := by
  cases x <;> simp

@[simp] theorem errorOf_map (x : Except ε α) (f : α → β) : errorOf (f <$> x) = errorOf x := by
  cases x <;> rfl

theorem errorOf_bind {second : Option ε} (same : ∀ a, errorOf (f a) = second) :
    errorOf (x >>= f) = (errorOf x).or second := by
  cases x with
  | error => rfl
  | ok a => exact same a

theorem errorOf_mapM (f : α → Except ε β) (l : List α) : errorOf (l.mapM f) = l.findSome? fun a => errorOf (f a) := by
  induction l with
  | nil => rfl
  | cons a rest ih =>
    rw [mapM_cons,findSome?_cons,@errorOf_bind _ _ _ _ _ (errorOf (rest.mapM f)),ih]
    · cases errorOf (f a) <;> rfl
    · intro b
      rw [@errorOf_bind _ _ _ _ _ none fun _ => rfl,Option.or_none]

/-! ### Computations that were cut short -/

/-- The second has the result of the first, unless that was cut short. -/
def Resumes (cut : ε) (x y : Except ε α) : Prop := x = .error cut ∨ y = x

section
variable {cut : ε}

theorem Resumes.refl (x : Except ε α) : Resumes cut x x := .inr rfl

variable {y : Except ε α} {g : α → Except ε β}

theorem Resumes.bind (first : Resumes cut x y)
    (rest : ∀ a, Resumes cut (f a) (g a)) : Resumes cut (x >>= f) (y >>= g) := by
  rcases first with rfl | rfl
  · exact .inl rfl
  · cases y with
    | error => exact .inr rfl
    | ok a => exact rest a

theorem Resumes.map (f : α → β) (first : Resumes cut x y) : Resumes cut (f <$> x) (f <$> y) := by
  rcases first with rfl | rfl
  · exact .inl rfl
  · exact .inr rfl

theorem Resumes.mapM (each : ∀ a, Resumes cut (f a) (g a)) (l : List α) : Resumes cut (l.mapM f) (l.mapM g) := by
  induction l with
  | nil => exact .refl _
  | cons a _ ih =>
    rw [mapM_cons,mapM_cons]
    exact .bind (each a) fun _ => .bind ih fun _ => .refl _

end

end Ferrin.Result
