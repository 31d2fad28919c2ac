import Mathlib.Data.List.Basic

/-!
Sequences whose entries are gathered into runs. An entry of a kind goes on with
the open run if that is of its kind, and opens a run otherwise; the others stand
by themselves, and some of them close the open run. Gathering the neighbours only
is the case in which all of them do. `gather_late_iff` says when it makes no
difference that runs stay open and that in each chunk calls come last.
-/
namespace Ferrin.Gathering
open List

inductive Shape (κ : Type) where
  | run (kind : κ)
  | call
  | aside
  | wall
  deriving DecidableEq

namespace Shape
variable {κ : Type} [DecidableEq κ]

def next (opened : Option κ) : Shape κ → Option κ
  | .run kind => some kind
  | .call | .aside => opened
  | .wall => none

/-- Whether the entry stands for itself, as it does not go on with the open run. -/
def pushes (opened : Option κ) : Shape κ → Bool
  | .run kind => opened ≠ some kind
  | _ => true

def isRun : Shape κ → Bool
  | .run _ => true
  | _ => false

def walled : Shape κ → Shape κ
  | .run kind => .run kind
  | _ => .wall

/-- How often a run is gone on with after others have come in between. `near` says that the last entry was of the run. -/
def resumptions : Option κ → Bool → List (Shape κ) → Nat
  | _,_,[] => 0
  | opened,near,s :: rest =>
    (if !near && !pushes opened s then 1 else 0) + resumptions (next opened s) s.isRun rest

/-- Some run is gone on with after others have come in between. -/
def Resumed (shapes : List (Shape κ)) : Prop :=
  ∃ before kind gap after, shapes = before ++ .run kind :: gap ++ .run kind :: after ∧ gap ≠ [] ∧
    ∀ s ∈ gap, s = .call ∨ s = .aside

theorem next_of_pushes_not {opened : Option κ} {s : Shape κ} (goes : s.pushes opened = false) :
    ∃ kind, s = .run kind ∧ opened = some kind := by
  cases s <;> simp_all [pushes]

theorem resumptions_append (before after : List (Shape κ)) : ∀ (opened : Option κ) (near : Bool),
    resumptions opened near (before ++ after) = resumptions opened near before +
      resumptions (before.foldl next opened) (before.getLast?.elim near isRun) after := by
  induction before with
  | nil => intro opened near; simp [resumptions]
  | cons s rest ih =>
    intro opened near
    have last : (s :: rest).getLast?.elim near isRun = rest.getLast?.elim s.isRun isRun := by
      rw [getLast?_cons]
      cases rest.getLast? <;> rfl
    rw [cons_append,resumptions,resumptions,ih,last,foldl_cons]
    omega

omit [DecidableEq κ] in
theorem next_gap {gap : List (Shape κ)} (beside : ∀ s ∈ gap, s = .call ∨ s = .aside) (opened : Option κ) :
    gap.foldl next opened = opened := by
  induction gap with
  | nil => rfl
  | cons s _ ih =>
    have same : next opened s = opened := by
      rcases beside s (by simp) with rfl | rfl <;> rfl
    rw [foldl_cons,same]
    exact ih fun s mem => beside s (by simp [mem])

omit [DecidableEq κ] in
theorem last_gap {gap : List (Shape κ)} (beside : ∀ s ∈ gap, s = .call ∨ s = .aside) (nonempty : gap ≠ [])
    (near : Bool) : gap.getLast?.elim near isRun = false := by
  rw [getLast?_eq_some_getLast nonempty]
  rcases beside _ (getLast_mem nonempty) with last | last <;> rw [Option.elim_some,last] <;> rfl

theorem resumed_of_resumptions (shapes : List (Shape κ)) : ∀ (opened : Option κ) (near : Bool),
    resumptions opened near shapes ≠ 0 → Resumed shapes ∨ ∃ kind gap after, opened = some kind ∧
      shapes = gap ++ .run kind :: after ∧ (near = true → gap ≠ []) ∧ ∀ s ∈ gap, s = .call ∨ s = .aside := by
  induction shapes with
  | nil => intro opened near some_; exact absurd rfl some_
  | cons s rest ih =>
    intro opened near some_
    by_cases here : near = false ∧ s.pushes opened = false
    · obtain ⟨kind,rfl,rfl⟩ := next_of_pushes_not here.2
      exact .inr ⟨kind,[],rest,rfl,rfl,by simp [here.1],by simp⟩
    · have later : resumptions (next opened s) s.isRun rest ≠ 0 := by
        rw [resumptions,if_neg (by simpa using here),Nat.zero_add] at some_
        exact some_
      rcases ih _ _ later with ⟨before,kind,gap,after,rfl,nonempty,beside⟩ | ⟨kind,gap,after,stays,rfl,apart,beside⟩
      · exact .inl ⟨s :: before,kind,gap,after,by simp,nonempty,beside⟩
      · cases s with
        | run =>
          cases stays
          exact .inl ⟨[],kind,gap,after,by simp,apart rfl,beside⟩
        | call => exact .inr ⟨kind,.call :: gap,after,stays,by simp,by simp,by simpa using beside⟩
        | aside => exact .inr ⟨kind,.aside :: gap,after,stays,by simp,by simp,by simpa using beside⟩
        | wall => cases stays

theorem resumptions_eq_zero (shapes : List (Shape κ)) : resumptions none false shapes = 0 ↔ ¬ Resumed shapes := by
  constructor
  · rintro none_ ⟨_,kind,gap,after,rfl,nonempty,beside⟩
    rw [append_assoc,cons_append,← singleton_append,← append_assoc,resumptions_append,
      resumptions_append gap] at none_
    simp only [foldl_append,foldl_cons,foldl_nil,next,next_gap beside,last_gap beside nonempty,
      resumptions,pushes] at none_
    simp at none_
  · intro not
    by_contra some_
    rcases resumed_of_resumptions shapes none false some_ with found | ⟨_,_,_,none_,-⟩
    · exact not found
    · cases none_

end Shape

/-! ### Gathered entries -/

/-- The entries up to the open run, the open run, and what stands after it. -/
structure Gathered (α : Type) where
  closed : List α
  opened : Option (α × List α)

def Gathered.start {α : Type} : Gathered α := ⟨[],none⟩

def Gathered.content {α : Type} (g : Gathered α) : List α :=
  g.closed ++ g.opened.elim [] fun opened => opened.1 :: opened.2

section
variable {α κ : Type} [DecidableEq κ] (shape : α → Shape κ) (add : α → α → α)

namespace Gathered

def kind (g : Gathered α) : Option κ :=
  match g.opened.map fun opened => shape opened.1 with
  | some (.run kind) => some kind
  | _ => none

def step (g : Gathered α) (e : α) : Gathered α :=
  match g.opened,shape e with
  | some (run,after),.run kind => if shape run = .run kind then ⟨g.closed,some (add run e,after)⟩ else ⟨g.content,some (e,[])⟩
  | none,.run _ => ⟨g.closed,some (e,[])⟩
  | _,.wall => ⟨g.content ++ [e],none⟩
  | some (run,after),_ => ⟨g.closed,some (run,after ++ [e])⟩
  | none,_ => ⟨g.closed ++ [e],none⟩

/-- No run is open any more. -/
def close (g : Gathered α) : Gathered α := ⟨g.content,none⟩

def Proper (g : Gathered α) : Prop := ∀ opened ∈ g.opened, (shape opened.1).isRun = true

end Gathered

def gather (entries : List α) : List α := (entries.foldl (Gathered.step shape add) .start).content

/-- An entry and those after it, with neighbours of one kind joined. -/
def mergeInto (e : α) : List α → List α
  | [] => [e]
  | next :: rest =>
    if (shape e).isRun ∧ shape next = shape e then mergeInto (add e next) rest else e :: mergeInto next rest

/-- The runs of neighbours joined. -/
def merged : List α → List α
  | [] => []
  | e :: rest => mergeInto shape add e rest

/-- The entries that stand for themselves. -/
def pushed : Option κ → List α → List α
  | _,[] => []
  | opened,e :: rest =>
    (if (shape e).pushes opened then [e] else []) ++ pushed ((shape e).next opened) rest

def late (chunk : List α) : List α :=
  chunk.filter (fun e => shape e ≠ .call) ++ chunk.filter fun e => shape e = .call

def InOrder (chunk : List α) : Prop := chunk.Pairwise fun a b => shape a = .call → shape b = .call

variable {shape add}
variable (kept : ∀ a b, shape (add a b) = shape a)
include kept

variable {β : Type} {g : Gathered α}

variable (told : α → β)

section
variable (same : ∀ a b, told (add a b) = told a)
include same

theorem step_told (proper : g.Proper shape) (e : α) :
    (g.step shape add e).content.map told = g.content.map told ++ (if (shape e).pushes (g.kind shape) then [told e] else []) ∧
      (g.step shape add e).kind shape = (shape e).next (g.kind shape) ∧ (g.step shape add e).Proper shape := by
  obtain ⟨_,opened⟩ := g
  cases opened with
  | none =>
    cases known : shape e <;>
      simp [Gathered.step,Gathered.content,Gathered.kind,Gathered.Proper,Shape.pushes,Shape.next,Shape.isRun,known]
  | some opened =>
    obtain ⟨run,_⟩ := opened
    obtain ⟨kind,isRun⟩ : ∃ kind, shape run = .run kind := by
      have found := proper _ rfl
      cases known : shape run <;> simp_all [Shape.isRun]
    cases known : shape e with
    | run other =>
      by_cases goes : kind = other
      · simp [Gathered.step,Gathered.content,Gathered.kind,Gathered.Proper,Shape.pushes,Shape.next,Shape.isRun,known,isRun,
          goes,kept,same]
      · simp [Gathered.step,Gathered.content,Gathered.kind,Gathered.Proper,Shape.pushes,Shape.next,Shape.isRun,known,isRun,
          goes]
    | call | aside | wall =>
      simp [Gathered.step,Gathered.content,Gathered.kind,Gathered.Proper,Shape.pushes,Shape.next,Shape.isRun,known,isRun]

theorem fold_told (entries : List α) :
    ∀ {g : Gathered α}, g.Proper shape → (entries.foldl (Gathered.step shape add) g).content.map told =
      g.content.map told ++ (pushed shape (g.kind shape) entries).map told := by
  induction entries with
  | nil => intro g _; simp [pushed]
  | cons e _ ih =>
    intro g proper
    obtain ⟨content,kind,proper'⟩ := step_told kept told same proper e
    rw [foldl_cons,ih proper',content,kind,pushed,map_append,append_assoc]
    congr 2
    split <;> rfl

theorem gather_told (entries : List α) :
    (gather shape add entries).map told = (pushed shape none entries).map told :=
  fold_told kept told same entries (by simp [Gathered.Proper,Gathered.start])

end

theorem length_gather (entries : List α) : (gather shape add entries).length = (pushed shape none entries).length := by
  have told := congrArg List.length (gather_told kept (fun _ => ()) (fun _ _ => rfl) entries)
  simpa using told

omit kept

theorem pushed_append (first second : List α) : ∀ opened : Option κ,
    pushed shape opened (first ++ second) = pushed shape opened first ++
      pushed shape ((first.map shape).foldl Shape.next opened) second := by
  induction first with
  | nil => intro opened; rfl
  | cons _ _ ih => intro opened; simp [pushed,ih]

theorem next_late (chunk : List α) : ∀ opened : Option κ,
    ((chunk.filter (shape · ≠ .call)).map shape).foldl Shape.next opened = (chunk.map shape).foldl Shape.next opened ∧
      ((chunk.filter (shape · = .call)).map shape).foldl Shape.next opened = opened := by
  induction chunk with
  | nil => intro opened; exact ⟨rfl,rfl⟩
  | cons e _ ih =>
    intro opened
    by_cases call : shape e = .call
    · simpa [filter_cons,call,Shape.next] using ih opened
    · have later := ih ((shape e).next opened)
      have still := (ih opened).2
      rw [filter_cons_of_pos (by simpa using call),filter_cons_of_neg (by simpa using call)]
      exact ⟨by simpa using later.1,still⟩

variable {calls : List α}

theorem pushed_calls (all : ∀ e ∈ calls, shape e = .call) (opened : Option κ) :
    pushed shape opened calls = calls := by
  induction calls with
  | nil => rfl
  | cons e _ ih =>
    rw [pushed,all e (by simp),Shape.next,ih fun e mem => all e (by simp [mem])]
    rfl

theorem pushed_without_calls (chunk : List α) : ∀ opened : Option κ,
    pushed shape opened (chunk.filter (shape · ≠ .call)) = (pushed shape opened chunk).filter (shape · ≠ .call) := by
  induction chunk with
  | nil => intro opened; rfl
  | cons e _ ih =>
    intro opened
    by_cases call : shape e = .call
    · simpa [filter_cons,call,pushed,Shape.next,Shape.pushes] using ih opened
    · rw [filter_cons_of_pos (by simpa using call),pushed,pushed,ih,filter_append]
      cases pushes : (shape e).pushes opened <;> simp [call]

theorem pushed_late (chunk : List α) (opened : Option κ) :
    pushed shape opened (late shape chunk) =
      (pushed shape opened chunk).filter (shape · ≠ .call) ++ chunk.filter (shape · = .call) := by
  have all : ∀ e ∈ chunk.filter (shape · = .call), shape e = .call := fun e mem => by
    simpa using (List.mem_filter.mp mem).2
  rw [late,pushed_append,pushed_without_calls,pushed_calls all]

theorem calls_pushed (chunk : List α) : ∀ opened : Option κ,
    (pushed shape opened chunk).filter (shape · = .call) = chunk.filter (shape · = .call) := by
  induction chunk with
  | nil => intro opened; rfl
  | cons e _ ih =>
    intro opened
    rw [pushed,filter_append,ih]
    by_cases call : shape e = .call
    · simp [call,Shape.pushes]
    · cases pushes : (shape e).pushes opened <;> simp [call]

theorem next_of_late (chunk : List α) (opened : Option κ) :
    ((late shape chunk).map shape).foldl Shape.next opened = (chunk.map shape).foldl Shape.next opened := by
  rw [late,map_append,foldl_append,(next_late chunk opened).1,(next_late chunk _).2]

theorem length_pushed_late (chunk : List α) (opened : Option κ) :
    (pushed shape opened (late shape chunk)).length = (pushed shape opened chunk).length := by
  rw [pushed_late,← calls_pushed chunk opened]
  simpa using (List.perm_append_comm.trans (filter_append_perm (shape · = .call) (pushed shape opened chunk))).length_eq

theorem length_pushed_flatMap_late (chunks : List (List α)) : ∀ opened : Option κ,
    (pushed shape opened (chunks.flatMap (late shape))).length = (pushed shape opened chunks.flatten).length := by
  induction chunks with
  | nil => intro opened; rfl
  | cons _ _ ih =>
    intro opened
    simp [pushed_append,length_pushed_late,next_of_late,ih]

variable {chunk : List α}

theorem late_of_inOrder (order : InOrder shape chunk) : late shape chunk = chunk := by
  induction chunk with
  | nil => rfl
  | cons e rest ih =>
    rw [InOrder,pairwise_cons] at order
    by_cases call : shape e = .call
    · have all : ∀ b ∈ rest, shape b = .call := fun b mem => order.1 b mem call
      have none_ : rest.filter (shape · ≠ .call) = [] := by
        simpa [filter_eq_nil_iff] using all
      have whole : rest.filter (shape · = .call) = rest := List.filter_eq_self.mpr (by simpa using all)
      rw [late,filter_cons_of_neg (by simpa using call),filter_cons_of_pos (by simpa using call),none_,whole]
      rfl
    · rw [late,filter_cons_of_pos (by simpa using call),filter_cons_of_neg (by simpa using call),
        cons_append]
      exact congrArg _ (ih order.2)

theorem inOrder_of_pushed : ∀ {opened : Option κ} {near : Bool},
    Shape.resumptions opened near (chunk.map shape) = 0 → InOrder shape (pushed shape opened chunk) →
      InOrder shape chunk ∧ (near = false → (∀ e ∈ pushed shape opened chunk, shape e = .call) → ∀ e ∈ chunk, shape e = .call) := by
  induction chunk with
  | nil => intro opened near _ _; exact ⟨.nil,by simp⟩
  | cons e _ ih =>
    intro opened near none_ order
    rw [map_cons,Shape.resumptions,Nat.add_eq_zero_iff] at none_
    rw [pushed,InOrder,pairwise_append] at order
    obtain ⟨later,calls⟩ := ih none_.2 order.2.1
    constructor
    · refine List.pairwise_cons.mpr ⟨fun b mem call => ?_,later⟩
      refine calls (by rw [call]; rfl) (fun other among => ?_) b mem
      exact order.2.2 e (by simp [call,Shape.pushes]) other among call
    · rintro rfl all
      have pushes : (shape e).pushes opened = true := by
        by_contra goes
        simp [goes] at none_
      have call : shape e = .call := all e (by simp [pushed,pushes])
      have others := calls (by rw [call]; rfl) fun other among => all other (by simp [pushed,among])
      simpa [call] using others

omit [DecidableEq κ] in
variable {first : List α}

theorem inOrder_of_shapes {others : β → Shape κ} {second : List β}
    (same : first.map shape = second.map others) : InOrder shape first ↔ InOrder others second := by
  have shapes {γ : Type} (of : γ → Shape κ) (l : List γ) :
      InOrder of l ↔ (l.map of).Pairwise fun a b => a = .call → b = .call := by
    rw [pairwise_map]
    rfl
  rw [shapes,shapes,same]

omit [DecidableEq κ] in
theorem inOrder_calls (all : ∀ e ∈ calls, shape e = .call) : InOrder shape calls :=
  pairwise_of_forall_mem_list fun _ _ b mem _ => all b mem

theorem inOrder_late (entries chunk : List α) :
    InOrder shape (entries.filter (shape · ≠ .call) ++ chunk.filter (shape · = .call)) := by
  refine List.pairwise_append.mpr ⟨?_,inOrder_calls ?_,?_⟩
  · refine pairwise_of_forall_mem_list fun a mem b _ call => ?_
    simp [call] at mem
  · intro e mem
    simpa using (List.mem_filter.mp mem).2
  · intro a mem b _ call
    simp [call] at mem

theorem inOrder_of_told {second : List α} (order : InOrder shape second)
    (told : first.map (fun e => decide (shape e = .call)) = second.map fun e => decide (shape e = .call)) : InOrder shape first := by
  have flags : ∀ l : List α, InOrder shape l ↔ (l.map fun e => decide (shape e = .call)).Pairwise fun a b : Bool => a = true → b = true := by
    intro l
    rw [pairwise_map]
    simp only [decide_eq_true_eq]
    rfl
  rw [flags,told,← flags]
  exact order

theorem inOrder_of_gathered {chunks : List (List α)} : ∀ {opened : Option κ} {near : Bool},
    Shape.resumptions opened near (chunks.flatten.map shape) = 0 →
    (pushed shape opened (chunks.flatMap (late shape))).map (fun e => decide (shape e = .call)) =
      (pushed shape opened chunks.flatten).map (fun e => decide (shape e = .call)) → ∀ chunk ∈ chunks, InOrder shape chunk := by
  induction chunks with
  | nil => simp
  | cons _ _ ih =>
    intro opened near none_ told
    rw [flatten_cons,map_append,Shape.resumptions_append,Nat.add_eq_zero_iff] at none_
    rw [flatMap_cons,flatten_cons,pushed_append,pushed_append,map_append,map_append,next_of_late] at told
    obtain ⟨here,later⟩ := append_inj told (by simp [length_pushed_late])
    intro other mem
    rcases List.mem_cons.mp mem with rfl | among
    · refine (inOrder_of_pushed none_.1 (inOrder_of_told ?_ here.symm)).1
      rw [pushed_late]
      exact inOrder_late _ _
    · exact ih none_.2 later other among

/-! ### Merged neighbours -/

theorem length_pushed_walled (entries : List α) : ∀ (opened : Option κ) (near : Bool),
    (pushed (fun e => (shape e).walled) (if near then opened else none) entries).length =
      (pushed shape opened entries).length + Shape.resumptions opened near (entries.map shape) := by
  induction entries with
  | nil => intro opened near; rfl
  | cons e _ ih =>
    intro opened near
    have later := ih ((shape e).next opened) (shape e).isRun
    have after : (if (shape e).isRun then (shape e).next opened else none) =
        ((shape e).walled).next (if near then opened else none) := by
      cases shape e <;> rfl
    rw [after] at later
    rw [pushed,pushed,map_cons,Shape.resumptions,length_append,length_append,later]
    have here : (if ((shape e).walled).pushes (if near then opened else none) then [e] else []).length =
        (if (shape e).pushes opened then [e] else []).length + if !near && !(shape e).pushes opened then 1 else 0 := by
      cases shape e with
      | run kind =>
        cases near
        · by_cases goes : opened = some kind <;> simp [Shape.walled,Shape.pushes,goes]
        · simp [Shape.walled]
      | call | aside | wall => simp [Shape.walled,Shape.pushes]
    omega

theorem content_of_other {e : α} (other : (shape e).isRun = false) :
    (g.step shape add e).content = g.content ++ [e] := by
  obtain ⟨_,opened⟩ := g
  cases opened <;> cases known : shape e <;> simp_all [Gathered.step,Gathered.content,Shape.isRun]

theorem step_close {e : α} (proper : g.Proper shape)
    (closes : shape e = .wall ∨ ∃ kind, shape e = .run kind ∧ g.kind shape ≠ some kind) :
    g.close.step shape add e = g.step shape add e := by
  obtain ⟨_,opened⟩ := g
  cases opened with
  | none =>
    rcases closes with wall | ⟨kind,isRun,-⟩
    · simp [Gathered.step,Gathered.close,Gathered.content,wall]
    · simp [Gathered.step,Gathered.close,Gathered.content,isRun]
  | some opened =>
    rcases closes with wall | ⟨kind,isRun,other⟩
    · simp [Gathered.step,Gathered.close,Gathered.content,wall]
    · have apart : shape opened.1 ≠ .run kind := by
        intro same
        simp [Gathered.kind,same] at other
      simp [Gathered.step,Gathered.close,Gathered.content,isRun,apart]

def Alike (near : Bool) (g m : Gathered α) : Prop :=
  g.content = m.content ∧ if near then g = m ∧ ∃ run, g.opened = some (run,[]) else m.opened = none

theorem alike_step {near : Bool} {m : Gathered α} {e : α} (alike : Alike near g m) (proper : g.Proper shape)
    (none_ : (!near && !(shape e).pushes (g.kind shape)) = false) :
    Alike (shape e).isRun (g.step shape add e) (m.step (fun e => (shape e).walled) add e) := by
  obtain ⟨same,nearly⟩ := alike
  cases isRun : (shape e).isRun with
  | false =>
    have other : ((shape e).walled).isRun = false := by cases known : shape e <;> simp_all [Shape.walled,Shape.isRun]
    have stands : (m.step (fun e => (shape e).walled) add e).content = m.content ++ [e] := content_of_other other
    refine ⟨by rw [content_of_other isRun,stands,same],?_⟩
    have wall : (shape e).walled = .wall := by cases known : shape e <;> simp_all [Shape.walled,Shape.isRun]
    obtain ⟨closed,opened⟩ := m
    cases opened <;> simp [Gathered.step,wall]
  | true =>
    obtain ⟨kind,known⟩ : ∃ kind, shape e = .run kind := by cases known : shape e <;> simp_all [Shape.isRun]
    cases near with
    | true =>
      obtain ⟨rfl,run,opened⟩ := nearly
      obtain ⟨closed,_⟩ := g
      cases opened
      have walled : (shape run).walled = .run kind ↔ shape run = .run kind := by cases shape run <;> simp [Shape.walled]
      by_cases goes : shape run = .run kind <;> simp [Alike,Gathered.step,known,walled,goes,show (Shape.run kind).walled = .run kind from rfl]
    | false =>
      obtain ⟨_,opened⟩ := g
      obtain ⟨_,_⟩ := m
      cases nearly
      simp only [Gathered.content,Option.elim_none,append_nil] at same
      subst same
      cases opened with
      | none => simp [Alike,Gathered.step,Gathered.content,known,Shape.walled]
      | some opened =>
        obtain ⟨run,_⟩ := opened
        have apart : shape run ≠ .run kind := by
          intro goes
          simp [known,Shape.pushes,Gathered.kind,goes] at none_
        simp [Alike,Gathered.step,Gathered.content,known,Shape.walled,apart]

end

section
variable {α κ : Type} [DecidableEq κ] {shape : α → Shape κ} {add : α → α → α}
variable (kept : ∀ a b, shape (add a b) = shape a)
include kept

theorem alike_fold (entries : List α) : ∀ {near : Bool} {g m : Gathered α}, Alike near g m → g.Proper shape →
    Shape.resumptions (g.kind shape) near (entries.map shape) = 0 →
      (entries.foldl (Gathered.step shape add) g).content =
        (entries.foldl (Gathered.step (fun e => (shape e).walled) add) m).content := by
  induction entries with
  | nil => intro near g m alike _ _; exact alike.1
  | cons e _ ih =>
    intro near g m alike proper none_
    rw [map_cons,Shape.resumptions,Nat.add_eq_zero_iff] at none_
    obtain ⟨-,kind,proper'⟩ := step_told kept (fun _ => ()) (fun _ _ => rfl) proper e
    have goes : (!near && !(shape e).pushes (g.kind shape)) = false := by simpa using none_.1
    exact ih (alike_step alike proper goes) proper' (kind ▸ none_.2)

theorem step_neighbours (closed : List α) (e next : α) :
    let step := Gathered.step (fun e => (shape e).walled) add
    step (step ⟨closed,none⟩ e) next =
      if (shape e).isRun ∧ shape next = shape e then step ⟨closed,none⟩ (add e next) else step ⟨closed ++ [e],none⟩ next := by
  intro step
  cases known : shape e with
  | run kind =>
    cases other : shape next with
    | run kind' =>
      by_cases same : kind' = kind
      · simp [step,Gathered.step,Shape.walled,Shape.isRun,known,other,same,kept]
      · simp [step,Gathered.step,Gathered.content,Shape.walled,known,other,same,Ne.symm same]
    | call | aside | wall => simp [step,Gathered.step,Gathered.content,Shape.walled,known,other]
  | call | aside | wall => cases other : shape next <;> simp [step,Gathered.step,Gathered.content,Shape.walled,Shape.isRun,known,other]

theorem merged_eq_gather (entries : List α) : merged shape add entries = gather (fun e => (shape e).walled) add entries := by
  have joined (rest : List α) : ∀ (closed : List α) (e : α),
      (rest.foldl (Gathered.step (fun e => (shape e).walled) add)
        (Gathered.step (fun e => (shape e).walled) add ⟨closed,none⟩ e)).content = closed ++ mergeInto shape add e rest := by
    induction rest with
    | nil =>
      intro closed e
      cases known : shape e <;> simp [Gathered.step,Gathered.content,Shape.walled,mergeInto,known]
    | cons next _ ih =>
      intro closed e
      rw [foldl_cons,step_neighbours kept,mergeInto]
      split_ifs
      · exact ih closed (add e next)
      · rw [ih,append_assoc,singleton_append]
  cases entries with
  | nil => rfl
  | cons e rest => exact (joined rest [] e).symm

theorem gather_late_iff (chunks : List (List α)) :
    gather shape add (chunks.flatMap (late shape)) = merged shape add chunks.flatten ↔
      (∀ chunk ∈ chunks, InOrder shape chunk) ∧ ¬ Shape.Resumed (chunks.flatten.map shape) := by
  have keptWalled : ∀ a b, (shape (add a b)).walled = (shape a).walled := fun a b => by rw [kept]
  rw [merged_eq_gather kept]
  have proper : (Gathered.start : Gathered α).Proper shape := by simp [Gathered.Proper,Gathered.start]
  have none_merges (none_ : Shape.resumptions none false (chunks.flatten.map shape) = 0) :
      gather shape add chunks.flatten = gather (fun e => (shape e).walled) add chunks.flatten :=
    alike_fold kept _ (show Alike false .start .start from ⟨rfl,rfl⟩) proper none_
  rw [← Shape.resumptions_eq_zero]
  constructor
  · intro same
    have more : (pushed (fun e => (shape e).walled) none chunks.flatten).length = _ :=
      length_pushed_walled chunks.flatten none false
    have lengths : (pushed shape none (chunks.flatMap (late shape))).length = (pushed shape none chunks.flatten).length :=
      length_pushed_flatMap_late chunks none
    have none_ : Shape.resumptions none false (chunks.flatten.map shape) = 0 := by
      have := congrArg List.length same
      rw [length_gather kept,length_gather keptWalled] at this
      omega
    refine ⟨inOrder_of_gathered none_ ?_,none_⟩
    rw [← gather_told kept (fun e => decide (shape e = .call)) (by simp [kept]),
      ← gather_told kept (fun e => decide (shape e = .call)) (by simp [kept]),same,none_merges none_]
  · rintro ⟨order,none_⟩
    have whole : chunks.flatMap (late shape) = chunks.flatten := by
      rw [flatMap_def,map_congr_left fun chunk mem => late_of_inOrder (order chunk mem),map_id']
    rw [whole,none_merges none_]

/-- How the entries of a run are joined is a matter of their order only. -/
def Associative (shape : α → Shape κ) (add : α → α → α) : Prop :=
  ∀ kind a b c, shape a = .run kind → shape b = .run kind → shape c = .run kind → add (add a b) c = add a (add b c)

def Pieces (shape : α → Shape κ) (add : α → α → α) (e : α) (pieces : List α) : Prop :=
  pieces = [e] ∨ ∃ kind first more, pieces = first :: more ∧ more.foldl add first = e ∧
    ∀ piece ∈ pieces, shape piece = .run kind

theorem step_twice (assoc : Associative shape add) {kind : κ} {a b : α}
    (first : shape a = .run kind) (second : shape b = .run kind) (g : Gathered α) :
    (g.step shape add a).step shape add b = g.step shape add (add a b) := by
  have both : shape (add a b) = .run kind := by rw [kept,first]
  obtain ⟨_,opened⟩ := g
  cases opened with
  | none => simp [Gathered.step,first,second,both]
  | some opened =>
    obtain ⟨run,_⟩ := opened
    by_cases goes : shape run = .run kind
    · simp [Gathered.step,first,second,both,goes,kept,assoc kind run a b goes first second]
    · simp [Gathered.step,Gathered.content,first,second,both,goes]

omit [DecidableEq κ] in
theorem shape_joined (first : α) (more : List α) : shape (more.foldl add first) = shape first := by
  induction more generalizing first with
  | nil => rfl
  | cons _ _ ih => rw [foldl_cons,ih,kept]

variable {pieces : List α}

theorem fold_pieces (assoc : Associative shape add) {e : α}
    (of : Pieces shape add e pieces) (g : Gathered α) : pieces.foldl (Gathered.step shape add) g = g.step shape add e := by
  rcases of with rfl | ⟨_,first,more,rfl,rfl,all⟩
  · rfl
  · induction more generalizing first with
    | nil => rfl
    | cons piece _ ih =>
      obtain ⟨isRun,second,others⟩ := by simpa only [forall_mem_cons] using all
      have joined := ih (add first piece) (List.forall_mem_cons.mpr ⟨(kept first piece).trans isRun,others⟩)
      rw [foldl_cons,foldl_cons,step_twice kept assoc isRun second g]
      exact joined

omit kept [DecidableEq κ] in
theorem pieces_walled {e : α} (of : Pieces shape add e pieces) : Pieces (fun e => (shape e).walled) add e pieces := by
  rcases of with rfl | ⟨kind,first,more,split,joined,all⟩
  · exact .inl rfl
  · exact .inr ⟨kind,first,more,split,joined,fun piece member => congrArg Shape.walled (all piece member)⟩

omit kept [DecidableEq κ] in
theorem associative_walled (assoc : Associative shape add) : Associative (fun e => (shape e).walled) add := by
  have unwalled : ∀ {kind : κ} {a : α}, (shape a).walled = .run kind → shape a = .run kind := by
    intro kind a walled
    cases known : shape a <;> rw [known] at walled <;> cases walled
    rfl
  exact fun kind a b c first second third => assoc kind a b c (unwalled first) (unwalled second) (unwalled third)

variable {entries : List α} {pieces : List (List α)}

theorem merged_pieces (assoc : Associative shape add)
    (of : List.Forall₂ (Pieces shape add) entries pieces) : merged shape add pieces.flatten = merged shape add entries := by
  have keptWalled : ∀ a b, (shape (add a b)).walled = (shape a).walled := fun a b => by rw [kept]
  have folds : ∀ g, pieces.flatten.foldl (Gathered.step (fun e => (shape e).walled) add) g =
      entries.foldl (Gathered.step (fun e => (shape e).walled) add) g := by
    induction of with
    | nil => intro g; rfl
    | cons here _ ih =>
      intro g
      rw [flatten_cons,foldl_append,fold_pieces keptWalled (associative_walled assoc) (pieces_walled here),ih,
        foldl_cons]
  rw [merged_eq_gather kept,merged_eq_gather kept,gather,folds]
  rfl

theorem resumptions_pieces
    (of : List.Forall₂ (Pieces shape add) entries pieces) : ∀ (opened : Option κ) (near : Bool),
    Shape.resumptions opened near (pieces.flatten.map shape) = Shape.resumptions opened near (entries.map shape) := by
  induction of with
  | nil => intro opened near; rfl
  | @cons e pieces entries rest here _ ih =>
    intro opened near
    rw [flatten_cons,map_append,map_cons]
    rcases here with rfl | ⟨kind,first,more,rfl,rfl,all⟩
    · rw [map_singleton,singleton_append,Shape.resumptions,Shape.resumptions,ih]
    · obtain ⟨isRun,others⟩ := List.forall_mem_cons.mp all
      have joined := (shape_joined kept first more).trans isRun
      have silent : Shape.resumptions (some kind) true (more.map shape ++ rest.flatten.map shape) =
          Shape.resumptions (some kind) true (rest.flatten.map shape) := by
        clear all joined
        induction more with
        | nil => rfl
        | cons _ _ again =>
          obtain ⟨same,others⟩ := List.forall_mem_cons.mp others
          rw [map_cons,cons_append,Shape.resumptions,same]
          simpa [Shape.next,Shape.isRun] using again others
      rw [map_cons,cons_append,Shape.resumptions,Shape.resumptions,joined,isRun]
      simp only [Shape.next,Shape.isRun]
      rw [silent,ih]

/-- `gather_late_iff` for chunks that carry the entries in pieces. -/
theorem gather_late_pieces_iff (assoc : Associative shape add)
    (of : List.Forall₂ (Pieces shape add) entries pieces) {chunks : List (List α)}
    (carried : chunks.flatten = pieces.flatten) :
    gather shape add (chunks.flatMap (late shape)) = merged shape add entries ↔
      (∀ chunk ∈ chunks, InOrder shape chunk) ∧ ¬ Shape.Resumed (entries.map shape) := by
  rw [← merged_pieces kept assoc of,← carried,gather_late_iff kept,← Shape.resumptions_eq_zero,
    ← Shape.resumptions_eq_zero,carried,resumptions_pieces kept of]

end

end Ferrin.Gathering
