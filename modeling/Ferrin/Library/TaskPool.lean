import Mathlib.Data.List.Perm.Basic

/-!
A bounded pool of tasks: at most `max` run side by side, in any order of their
ends, and a task that ends makes room for the next one.
-/
namespace Ferrin.TaskPool
open List

variable {τ : Type}

structure Pool (τ : Type) where
  pending : List τ
  running : List τ
  finished : List τ

namespace Pool

def start (tasks : List τ) : Pool τ := ⟨tasks,[],[]⟩

def spawn (p : Pool τ) : Pool τ :=
  match p.pending with
  | [] => p
  | task :: rest => {p with pending := rest, running := p.running ++ [task]}

def remove (p : Pool τ) (place : Nat) (task : τ) : Pool τ :=
  {p with running := p.running.eraseIdx place, finished := p.finished ++ [task]}

def fill : Nat → Pool τ → Pool τ
  | 0,p => p
  | room + 1,p => fill room p.spawn

/-- Nothing is left to run. -/
def is_idle (p : Pool τ) : Bool := p.running.isEmpty

end Pool

/-- The tasks have started in order and each once; at most `max` of them run,
    and fewer only when none is left. -/
structure Sound (max : Nat) (tasks : List τ) (p : Pool τ) : Prop where
  bounded : p.running.length ≤ max
  once : ∃ started, started ++ p.pending = tasks ∧ started.Perm (p.finished ++ p.running)
  busy : p.running.length < max → p.pending = []

structure Filling (max room : Nat) (tasks : List τ) (p : Pool τ) : Prop where
  bounded : p.running.length + room ≤ max
  once : ∃ started, started ++ p.pending = tasks ∧ started.Perm (p.finished ++ p.running)
  busy : p.running.length + room < max → p.pending = []

variable {max room : Nat} {tasks : List τ} {p : Pool τ}

theorem Filling.sound (filling : Filling max 0 tasks p) : Sound max tasks p :=
  ⟨filling.bounded,filling.once,filling.busy⟩

theorem filling_start (max : Nat) (tasks : List τ) : Filling max max tasks (.start tasks) :=
  ⟨by simp [Pool.start],⟨[],rfl,.nil⟩,by simp [Pool.start]⟩

theorem Filling.spawn (filling : Filling max (room + 1) tasks p) : Filling max room tasks p.spawn := by
  obtain ⟨started,same,perm⟩ := filling.once
  have bounded := filling.bounded
  unfold Pool.spawn
  split
  case h_1 none_left => exact ⟨by omega,⟨started,same,perm⟩,fun _ => none_left⟩
  case h_2 task rest next =>
    refine ⟨by simp; omega,⟨started ++ [task],by rw [← same,next]; simp,?_⟩,?_⟩
    · rw [← append_assoc]
      exact perm.append_right [task]
    · intro less
      have before := filling.busy (by simp at less; omega)
      simp [next] at before

theorem Filling.fill (filling : Filling max room tasks p) : Sound max tasks (p.fill room) := by
  induction room generalizing p with
  | zero => exact filling.sound
  | succ _ ih => exact ih filling.spawn

theorem Sound.remove {place : Nat} {task : τ} (sound : Sound max tasks p) (here : p.running[place]? = some task) :
    Filling max 1 tasks (p.remove place task) := by
  obtain ⟨started,same,perm⟩ := sound.once
  obtain ⟨inside,at_place⟩ := List.getElem?_eq_some_iff.mp here
  have shorter : (p.running.eraseIdx place).length + 1 = p.running.length := length_eraseIdx_add_one inside
  refine ⟨?_,⟨started,same,perm.trans ?_⟩,?_⟩
  · have bounded := sound.bounded
    simp only [Pool.remove]
    omega
  · have apart : p.running.Perm (task :: p.running.eraseIdx place) := by
      rw [← at_place]
      exact (getElem_cons_eraseIdx_perm inside).symm
    simp only [Pool.remove,append_assoc,singleton_append]
    exact apart.append_left p.finished
  · intro less
    refine sound.busy ?_
    simp only [Pool.remove] at less
    omega

theorem Sound.remove_spawn {place : Nat} {task : τ} (sound : Sound max tasks p)
    (here : p.running[place]? = some task) : Sound max tasks (p.remove place task).spawn :=
  (sound.remove here).spawn.sound

theorem Sound.idle (sound : Sound max tasks p) (room_for_one : 0 < max) (idle : p.is_idle) :
    p.pending = [] ∧ p.finished.Perm tasks := by
  have nothing : p.running = [] := List.isEmpty_iff.mp idle
  have none_left := sound.busy (by simpa [nothing] using room_for_one)
  obtain ⟨_,same,perm⟩ := sound.once
  rw [none_left,append_nil] at same
  rw [nothing,append_nil] at perm
  exact ⟨none_left,same ▸ perm.symm⟩

/-- The tasks that have not ended yet. -/
def Pool.left (p : Pool τ) : Nat := p.pending.length + p.running.length

theorem left_spawn (p : Pool τ) : p.spawn.left = p.left := by
  unfold Pool.spawn
  split
  case h_1 => rfl
  case h_2 task rest next =>
    simp only [Pool.left,next,length_append,length_cons,length_nil]
    omega

theorem left_fill (room : Nat) (p : Pool τ) : (p.fill room).left = p.left := by
  induction room generalizing p with
  | zero => rfl
  | succ _ ih => exact (ih p.spawn).trans (left_spawn p)

theorem left_remove {place : Nat} {task : τ} (here : p.running[place]? = some task) :
    (p.remove place task).left + 1 = p.left := by
  obtain ⟨inside,_⟩ := List.getElem?_eq_some_iff.mp here
  have shorter : (p.running.eraseIdx place).length + 1 = p.running.length := length_eraseIdx_add_one inside
  simp only [Pool.left,Pool.remove]
  omega

end Ferrin.TaskPool
