import Ferrin.StreamText.Accumulate
import Ferrin.Stream.Driver

/-!
How the chunks of a stream take its content on. Chunks lead a machine from one
state to another, and the content accumulated so far to more of it; what they
lead to composes.
-/
namespace Ferrin.StreamText
open Ferrin.Stream List Accumulation

variable {σ χ : Type} {m : StreamMachine σ χ} {include_raw : Bool} {s t u : σ} {acc later last : Accumulation}
  {chunks more : List (ParseResult χ)}

/-- Whatever comes after them, the chunks lead from one state to another, and their parts from one content to another. -/
def Leads (m : StreamMachine σ χ) (include_raw : Bool) (s : σ) (acc : Accumulation) (chunks : List (ParseResult χ)) (t : σ)
    (later : Accumulation) : Prop :=
  ∃ shown, (∀ rest, outputs m include_raw s (chunks ++ rest) = shown ++ outputs m include_raw t rest) ∧ acc.after shown = .ok later

theorem Leads.none (s : σ) (acc : Accumulation) : Leads m include_raw s acc [] s acc := ⟨[],fun _ => rfl,rfl⟩

theorem Leads.trans (here : Leads m include_raw s acc chunks t later) (there : Leads m include_raw t later more u last) :
    Leads m include_raw s acc (chunks ++ more) u last := by
  obtain ⟨first,leads,after⟩ := here
  obtain ⟨second,leads',after'⟩ := there
  refine ⟨first ++ second,fun rest => ?_,?_⟩
  · rw [append_assoc,leads,leads',append_assoc]
  · rw [after_append,after]
    exact after'

theorem raw_silent (include_raw : Bool) (raw : JsonValue) :
    ∀ part ∈ (if include_raw then [StreamPart.Raw raw] else []), Accumulation.silent part = true := by
  cases include_raw <;> simp [silent]

theorem Leads.chunk {chunk : ParseResult χ} {raws parts : List StreamPart}
    (handled : m.handle s chunk include_raw = some (t,raws ++ parts)) (quiet : ∀ part ∈ raws, Accumulation.silent part = true)
    (after : acc.after parts = .ok later) : Leads m include_raw s acc [chunk] t later := by
  refine ⟨raws ++ parts,fun rest => ?_,?_⟩
  · rw [singleton_append,outputs]
    simp only [handled]
  · rw [after_append,after_silent quiet]
    exact after

/-- One chunk for each item. What holds after the items before a chunk holds with its item after it. -/
theorem Leads.keeps {δ : Type} (Carries : ParseResult χ → δ → Prop) (Inv : List δ → σ → Accumulation → Prop) {items : List δ}
    (start : Inv [] s acc) (step : ∀ before item after, items = before ++ item :: after → ∀ t later, Inv before t later →
      ∀ chunk, Carries chunk item → ∃ u last, Leads m include_raw t later [chunk] u last ∧ Inv (before ++ [item]) u last)
    (carried : List.Forall₂ Carries chunks items) : ∃ t later, Leads m include_raw s acc chunks t later ∧ Inv items t later := by
  suffices ∀ (rest before : List δ) (chunks : List (ParseResult χ)) (s : σ) (acc : Accumulation), items = before ++ rest →
      Inv before s acc → List.Forall₂ Carries chunks rest →
      ∃ t later, Leads m include_raw s acc chunks t later ∧ Inv items t later from
    this items [] chunks s acc rfl start carried
  intro rest
  induction rest with
  | nil =>
    intro before chunks s acc split holds carried
    rw [append_nil] at split
    cases carried
    exact ⟨s,acc,.none _ _,split ▸ holds⟩
  | cons item rest ih =>
    intro before chunks s acc split holds carried
    obtain ⟨chunk,others,first,later,rfl⟩ := List.forall₂_cons_right_iff.mp carried
    obtain ⟨t,next,here,kept⟩ := step before item rest split s acc holds chunk first
    obtain ⟨u,last,there,all⟩ := ih (before ++ [item]) others t next (by simpa using split) kept later
    exact ⟨u,last,here.trans there,all⟩

theorem Leads.run {δ : Type} (Carries : ParseResult χ → δ → Prop) (state : List δ → σ) (heard : List δ → Accumulation)
    {items : List δ} (step : ∀ before item after, items = before ++ item :: after → ∀ chunk, Carries chunk item →
      Leads m include_raw (state before) (heard before) [chunk] (state (before ++ [item])) (heard (before ++ [item])))
    (carried : List.Forall₂ Carries chunks items) :
    Leads m include_raw (state []) (heard []) chunks (state items) (heard items) := by
  obtain ⟨t,later,leads,rfl,rfl⟩ := Leads.keeps Carries (fun items t later => t = state items ∧ later = heard items) ⟨rfl,rfl⟩
    (fun before item after split t later ⟨isState,isHeard⟩ chunk first =>
      ⟨_,_,isState ▸ isHeard ▸ step before item after split chunk first,rfl,rfl⟩) carried
  exact leads

theorem Leads.outputs (leads : Leads m include_raw s acc chunks t later) :
    ∃ shown, Stream.outputs m include_raw s chunks = shown ++ m.finish t ∧ acc.after shown = .ok later := by
  obtain ⟨shown,leads,after⟩ := leads
  have whole := leads []
  rw [append_nil] at whole
  exact ⟨shown,whole,after⟩

theorem Leads.accumulated {content : List Content} {parts : Open Nat}
    (leads : Leads m include_raw s .start chunks t ⟨content,parts⟩) (ends : ∀ part ∈ m.finish t, Accumulation.silent part = true) :
    accumulate (Stream.outputs m include_raw s chunks) = .ok content := by
  obtain ⟨_,whole,after⟩ := leads.outputs
  rw [whole,accumulate,after_append,after]
  exact congrArg _ (after_silent ends _)

end Ferrin.StreamText
