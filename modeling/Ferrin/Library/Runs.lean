import Mathlib.Logic.Function.Basic

/-!
Runs of a system whose actions may be disabled: what every step preserves holds
along a run, and what a run brings about was brought about by one of its steps.
-/
namespace Ferrin.Runs
open List

variable {σ α : Type} {step : σ → α → Option σ}

def run (step : σ → α → Option σ) : σ → List α → Option σ
  | s,[] => some s
  | s,a :: rest => (step s a).bind fun next => run step next rest

variable {s s' : σ} {P : σ → Prop} {actions : List α}

theorem run_cons {a : α} {rest : List α} :
    run step s (a :: rest) = some s' ↔ ∃ next, step s a = some next ∧ run step next rest = some s' := by
  simp [run,Option.bind_eq_some_iff]

theorem run_append {first second : List α} :
    run step s (first ++ second) = some s' ↔ ∃ mid, run step s first = some mid ∧ run step mid second = some s' := by
  induction first generalizing s with
  | nil => simp [run]
  | cons _ _ ih =>
    rw [cons_append,run_cons]
    constructor
    · rintro ⟨next,taken,later⟩
      obtain ⟨mid,before,after⟩ := ih.mp later
      exact ⟨mid,run_cons.mpr ⟨next,taken,before⟩,after⟩
    · rintro ⟨mid,before,after⟩
      obtain ⟨next,taken,rest_run⟩ := run_cons.mp before
      exact ⟨next,taken,ih.mpr ⟨mid,rest_run,after⟩⟩

theorem invariant (preserved : ∀ s a s', P s → step s a = some s' → P s')
    (holds : P s) (ran : run step s actions = some s') : P s' := by
  induction actions generalizing s with
  | nil =>
    cases ran
    exact holds
  | cons a _ ih =>
    obtain ⟨next,taken,later⟩ := run_cons.mp ran
    exact ih (preserved s a next holds taken) later

theorem becomes (ran : run step s actions = some s') (not_yet : ¬ P s)
    (holds : P s') : ∃ before a after mid next, actions = before ++ a :: after ∧ run step s before = some mid ∧
      ¬ P mid ∧ step mid a = some next ∧ P next ∧ run step next after = some s' := by
  induction actions generalizing s with
  | nil =>
    cases ran
    exact absurd holds not_yet
  | cons a rest ih =>
    obtain ⟨next,taken,later⟩ := run_cons.mp ran
    by_cases now : P next
    · exact ⟨[],a,rest,s,next,rfl,rfl,not_yet,taken,now,later⟩
    · obtain ⟨before,b,after,mid,following,same,first,still,stepped,brought,rest_run⟩ := ih later now
      exact ⟨a :: before,b,after,mid,following,by rw [same]; rfl,run_cons.mpr ⟨next,taken,first⟩,still,stepped,brought,
        rest_run⟩

/-- Every step of a run is taken under a condition on the state before it. -/
def Along (step : σ → α → Option σ) (ok : σ → α → Prop) : σ → List α → Prop
  | _,[] => True
  | s,a :: rest => ok s a ∧ ∀ next, step s a = some next → Along step ok next rest

theorem invariant_along {ok : σ → α → Prop}
    (preserved : ∀ s a s', P s → ok s a → step s a = some s' → P s') (holds : P s)
    (along : Along step ok s actions) (ran : run step s actions = some s') : P s' := by
  induction actions generalizing s with
  | nil =>
    cases ran
    exact holds
  | cons a _ ih =>
    obtain ⟨next,taken,later⟩ := run_cons.mp ran
    exact ih (preserved s a next holds along.1 taken) (along.2 next taken) later

/-- What is seen along a run, step by step. -/
def trace {β : Type} (step : σ → α → Option σ) (see : σ → α → List β) : σ → List α → List β
  | _,[] => []
  | s,a :: rest => see s a ++ (step s a).elim [] fun next => trace step see next rest

theorem trace_conserves {β : Type} {enters leaves : σ → α → List β} {C : σ → List β}
    (preserved : ∀ s a s', P s → step s a = some s' →
      P s' ∧ C s ++ enters s a = leaves s a ++ C s')
    (holds : P s) (ran : run step s actions = some s') :
    C s ++ trace step enters s actions = trace step leaves s actions ++ C s' := by
  induction actions generalizing s with
  | nil =>
    cases ran
    simp [trace]
  | cons a _ ih =>
    obtain ⟨next,taken,later⟩ := run_cons.mp ran
    obtain ⟨kept,same⟩ := preserved s a next holds taken
    simp only [trace,taken,Option.elim_some]
    rw [← append_assoc,same,append_assoc,append_assoc,ih kept later]

/-! ### Loops whose turns can fail -/

section
variable {τ ε : Type} {finished : σ → Bool} {turn : σ → τ → Except ε σ}

def loop (finished : σ → Bool) (turn : σ → τ → Except ε σ) : σ → List τ → Except ε σ
  | s,[] => .ok s
  | s,t :: rest => if finished s then .ok s else (turn s t).bind fun next => loop finished turn next rest

theorem loop_cons {t : τ} {rest : List τ} (goes_on : finished s = false) :
    loop finished turn s (t :: rest) = (turn s t).bind fun next => loop finished turn next rest := by
  simp [loop,goes_on]

variable {turns : List τ}

theorem loop_invariant (preserved : ∀ s, ∀ t ∈ turns, ∀ s', P s → turn s t = .ok s' → P s') (holds : P s)
    (ran : loop finished turn s turns = .ok s') : P s' := by
  induction turns generalizing s with
  | nil =>
    cases ran
    exact holds
  | cons t _ ih =>
    cases ends : finished s with
    | true =>
      simp only [loop,ends,if_true] at ran
      cases ran
      exact holds
    | false =>
      rw [loop_cons ends] at ran
      cases taken : turn s t with
      | error =>
        rw [taken] at ran
        cases ran
      | ok next =>
        rw [taken] at ran
        exact ih (fun s t mem => preserved s t (mem_cons_of_mem _ mem))
          (preserved s t mem_cons_self next holds taken) ran

theorem loop_error (preserved : ∀ s, ∀ t ∈ turns, ∀ s', P s → turn s t = .ok s' → P s') {e : ε} (holds : P s)
    (failed : loop finished turn s turns = .error e) : ∃ s' t, P s' ∧ t ∈ turns ∧ turn s' t = .error e := by
  induction turns generalizing s with
  | nil => cases failed
  | cons t _ ih =>
    cases ends : finished s with
    | true => simp [loop,ends] at failed
    | false =>
      rw [loop_cons ends] at failed
      cases taken : turn s t with
      | error =>
        rw [taken] at failed
        cases failed
        exact ⟨s,t,holds,mem_cons_self,taken⟩
      | ok next =>
        rw [taken] at failed
        obtain ⟨s',u,reached,mem,broke⟩ := ih (fun s t mem => preserved s t (mem_cons_of_mem _ mem))
          (preserved s t mem_cons_self next holds taken) failed
        exact ⟨s',u,reached,mem_cons_of_mem _ mem,broke⟩

end

end Ferrin.Runs
