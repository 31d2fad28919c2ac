import Ferrin.Library.Separated
import Ferrin.Middleware.ReasoningSections

/-!
The extraction from a complete text, by the sections of the text: the matches
are its reasoning sections, and what is left is put together from the last
section on (`apply_told`).
-/
namespace Ferrin.Middleware
open List Nat ExtractReasoning
open Ferrin.Delimiter (find)
open Ferrin.Separated (rejoin)

def outside (sections : List Section) : List (List Char) := (sections.filter (!·.is_reasoning)).map (·.text)

/-- The texts between the tags, empty ones among them. -/
def inside (sections : List Section) : List (List Char) := (sections.filter (·.is_reasoning)).map (·.text)

def EndsOutside (sections : List Section) : Prop := ∀ s, sections.getLast? = some s → s.is_reasoning = false

instance (sections : List Section) : Decidable (EndsOutside sections) :=
  inferInstanceAs (Decidable (∀ s ∈ sections.getLast?, s.is_reasoning = false))

section
variable {config : ExtractReasoning}

theorem EndsOutside.rest {s : Section} {rest : List Section} (some_rest : rest ≠ []) (ends : EndsOutside (s :: rest)) :
    EndsOutside rest := by
  obtain ⟨_,_,rfl⟩ := exists_cons_of_ne_nil some_rest
  exact fun last same => ends last (List.getLast?_cons_cons.trans same)

theorem captures_cut (tags : Tags config) (n : Nat) : ∀ (front text : List Char) (turns : Nat), text.length < n →
    text.length < turns → EndsOutside (cut config turns false text) →
    (captures config n front.length text).map (·.inner) = inside (cut config turns false text) ∧
      (captures config n front.length text).reverse.foldl config.remove (front ++ text) =
        front ++ rejoin config.separator (!front.isEmpty) (outside (cut config turns false text)) := by
  induction n with
  | zero => exact fun _ _ _ impossible => absurd impossible (Nat.not_lt_zero _)
  | succ n ih =>
    intro front text turns bound enough ends
    obtain ⟨turns,rfl⟩ := exists_eq_succ_of_ne_zero (Nat.ne_of_gt (zero_lt_of_lt enough))
    have opening : config.tag false = config.opening_tag := rfl
    have closing : config.tag true = config.closing_tag := rfl
    rw [cut,opening] at ends ⊢
    rw [captures]
    cases opened : find config.opening_tag text with
    | none => simp [inside,outside,rejoin]
    | some i =>
      rw [opened] at ends
      dsimp only at ends ⊢
      have fits := (Delimiter.find_some opened).2
      have some_opening := List.length_pos_iff.mpr tags.opening
      have shorter : (text.drop (i + config.opening_tag.length)).length < turns := by
        rw [length_drop]
        omega
      obtain ⟨turns,rfl⟩ := exists_eq_succ_of_ne_zero (Nat.ne_of_gt (zero_lt_of_lt shorter))
      replace ends := ends.rest (cut_ne_nil _ _ _ _)
      rw [Bool.not_false,cut,closing] at ends ⊢
      cases closed : find config.closing_tag (text.drop (i + config.opening_tag.length)) with
      | none =>
        rw [closed] at ends
        exact absurd (ends _ rfl) (by simp)
      | some j =>
        rw [closed] at ends
        dsimp only at ends ⊢
        replace ends := ends.rest (cut_ne_nil _ _ _ _)
        have closing_fits := (Delimiter.find_some closed).2
        have some_closing := List.length_pos_iff.mpr tags.closing
        have inner_length := @length_drop _ (i + config.opening_tag.length) text
        generalize inner_eq : text.drop (i + config.opening_tag.length) = inner at *
        -- what has been passed over once this match is over
        generalize passed_eq : front ++ text.take (i + config.opening_tag.length) ++
          inner.take (j + config.closing_tag.length) = passed
        have whole : front ++ text = passed ++ inner.drop (j + config.closing_tag.length) := by
          rw [← passed_eq,append_assoc,take_append_drop,append_assoc,← inner_eq,take_append_drop]
        have place : front.length + (i + config.opening_tag.length) + (j + config.closing_tag.length) = passed.length := by
          rw [← passed_eq,length_append,length_append,length_take_of_le fits,
            length_take_of_le closing_fits]
        have short : (inner.drop (j + config.closing_tag.length)).length < turns := by
          rw [length_drop]
          omega
        have fewer : (inner.drop (j + config.closing_tag.length)).length < n := by
          rw [length_drop]
          omega
        have later := ih passed (inner.drop (j + config.closing_tag.length)) turns fewer short ends
        have filled_front : (!passed.isEmpty) = true := by
          have : 0 < passed.length := by omega
          simpa [List.isEmpty_iff] using List.length_pos_iff.mp this
        rw [filled_front,← place] at later
        obtain ⟨inners,left⟩ := later
        refine ⟨?_,?_⟩
        · rw [map_cons,inners]
          simp [inside]
        · have before : (passed ++ rejoin config.separator true (outside (cut config turns false
              (inner.drop (j + config.closing_tag.length))))).take (front.length + i) = front ++ text.take i := by
            have within : i ≤ (text.take (i + config.opening_tag.length)).length := by
              rw [length_take_of_le fits]
              exact Nat.le_add_right _ _
            rw [← passed_eq,append_assoc,append_assoc,take_length_add_append,
              take_append_of_le_length within,take_take,Nat.min_eq_left (Nat.le_add_right _ _)]
          rw [reverse_cons,foldl_append,whole,left,foldl_cons,foldl_nil,remove,
            before,place,drop_left]
          have own : outside (⟨false,text.take i⟩ :: ⟨true,inner.take j⟩ ::
              cut config turns false (inner.drop (j + config.closing_tag.length))) =
              text.take i :: outside (cut config turns false (inner.drop (j + config.closing_tag.length))) := by
            simp [outside]
          have led : (text.take i = [] ∧ (!front.isEmpty) = false) ↔ front ++ text.take i = [] := by
            rw [append_eq_nil_iff,and_comm]
            simp
          rw [Bool.not_true,own,rejoin]
          simp only [led,append_assoc]

theorem cut_turns (tags : Tags config) (turns : Nat) : ∀ (more : Nat) (mode : Bool) (text : List Char),
    text.length < turns → text.length < more → cut config turns mode text = cut config more mode text := by
  induction turns with
  | zero => exact fun _ _ _ impossible => absurd impossible (Nat.not_lt_zero _)
  | succ _ ih =>
    intro more mode text bound enough
    obtain ⟨more,rfl⟩ := exists_eq_succ_of_ne_zero (Nat.ne_of_gt (zero_lt_of_lt enough))
    rw [cut,cut]
    cases found : find (config.tag mode) text with
    | none => rfl
    | some i =>
      have fits := (Delimiter.find_some found).2
      have some_tag := List.length_pos_iff.mpr (tags.tag_ne mode)
      have shorter : (text.drop (i + (config.tag mode).length)).length < text.length := by
        rw [length_drop]
        omega
      dsimp only
      rw [ih more _ _ (by omega) (by omega)]

/-! ### What a complete result tells -/

def remainingText (content : List Content) : List Char :=
  content.flatMap fun
    | .Text text _ => text.toList
    | _ => []

def reasoningText (content : List Content) : List Char :=
  content.flatMap fun
    | .Reasoning text _ => text.toList
    | _ => []

theorem apply_part_found {text : String} {metadata : Option ProviderMetadata} {subject : List Char} {found : List Match}
    (same : subject = if config.start_with_reasoning then config.opening_tag ++ text.toList else text.toList)
    (matched : captures config (subject.length + 1) 0 subject = found) (some_match : found ≠ []) :
    remainingText (config.apply [.Text text metadata]) = found.reverse.foldl config.remove subject ∧
      reasoningText (config.apply [.Text text metadata]) = config.separator.intercalate (found.map (·.inner)) := by
  rw [apply,flatMap_singleton,apply_part]
  dsimp only
  rw [← same,matched,if_neg (by simpa using some_match)]
  simp [remainingText,reasoningText]

theorem apply_part_none {text : String} {metadata : Option ProviderMetadata} {subject : List Char}
    (same : subject = if config.start_with_reasoning then config.opening_tag ++ text.toList else text.toList)
    (unmatched : captures config (subject.length + 1) 0 subject = []) :
    remainingText (config.apply [.Text text metadata]) = text.toList ∧
      reasoningText (config.apply [.Text text metadata]) = [] := by
  rw [apply,flatMap_singleton,apply_part]
  dsimp only
  rw [← same,unmatched,if_pos (by rfl)]
  simp [remainingText,reasoningText]

theorem find_opening (tags : Tags config) (text : List Char) :
    find config.opening_tag (config.opening_tag ++ text) = some 0 := by
  obtain ⟨c,rest,same⟩ := exists_cons_of_ne_nil tags.opening
  rw [same,cons_append,find,if_pos]
  exact prefix_append (c :: rest) text

theorem cut_opening (tags : Tags config) (text : List Char) :
    cut config ((config.opening_tag ++ text).length + 1) false (config.opening_tag ++ text) =
      ⟨false,[]⟩ :: cut config (text.length + 1) true text := by
  have some_opening := List.length_pos_iff.mpr tags.opening
  rw [cut,show config.tag false = config.opening_tag from rfl,find_opening tags]
  dsimp only
  rw [Nat.zero_add,drop_left,take_zero,Bool.not_false]
  congr 1
  refine cut_turns tags _ _ _ _ ?_ (lt_succ_self _)
  rw [length_append]
  omega

/-- The texts of a complete result that are put together from the last one on. -/
def ExtractReasoning.pieces (config : ExtractReasoning) (text : List Char) : List (List Char) :=
  if config.start_with_reasoning then [] :: outside (config.sections text) else outside (config.sections text)

theorem apply_told (tags : Tags config) (text : String) (metadata : Option ProviderMetadata)
    (ends : EndsOutside (config.sections text.toList)) :
    remainingText (config.apply [.Text text metadata]) = rejoin config.separator false (config.pieces text.toList) ∧
      reasoningText (config.apply [.Text text metadata]) =
        config.separator.intercalate (inside (config.sections text.toList)) := by
  generalize subject_eq : (if config.start_with_reasoning then config.opening_tag ++ text.toList else text.toList) = subject
  have sections : EndsOutside (cut config (subject.length + 1) false subject) ∧
      inside (cut config (subject.length + 1) false subject) = inside (config.sections text.toList) ∧
      outside (cut config (subject.length + 1) false subject) = config.pieces text.toList := by
    rw [ExtractReasoning.pieces,ExtractReasoning.sections] at *
    cases start : config.start_with_reasoning with
    | false =>
      rw [start] at ends subject_eq
      subst subject_eq
      exact ⟨ends,rfl,rfl⟩
    | true =>
      rw [start] at ends subject_eq
      subst subject_eq
      simp only [if_true]
      rw [cut_opening tags]
      refine ⟨fun s last => ?_,rfl,rfl⟩
      obtain ⟨_,_,same⟩ := exists_cons_of_ne_nil (cut_ne_nil config (text.toList.length + 1) true text.toList)
      rw [same] at last ends
      exact ends s (getLast?_cons_cons ▸ last)
  obtain ⟨ends,insides,outsides⟩ := sections
  have told := captures_cut tags (subject.length + 1) [] subject _ (lt_succ_self _) (lt_succ_self _) ends
  rw [insides,outsides,nil_append,nil_append,length_nil,show (!([] : List Char).isEmpty) = false from rfl]
    at told
  obtain ⟨inners,left⟩ := told
  by_cases unmatched : captures config (subject.length + 1) 0 subject = []
  · obtain ⟨remaining,reasoning⟩ := @apply_part_none config text metadata _ subject_eq.symm unmatched
    rw [unmatched] at inners left
    rw [remaining,reasoning,← inners,← left]
    cases start : config.start_with_reasoning with
    | false =>
      rw [start] at subject_eq
      exact ⟨subject_eq,rfl⟩
    | true =>
      -- the first section is reasoning, and so there is a match
      have alternate : Alternate true (config.sections text.toList) := start ▸ cut_alternate _ _ _
      obtain ⟨first,rest,same⟩ := exists_cons_of_ne_nil (cut_ne_nil config (text.toList.length + 1)
        config.start_with_reasoning text.toList)
      rw [show config.sections text.toList = first :: rest from same] at alternate inners
      simp [inside,alternate.1] at inners
  · obtain ⟨remaining,reasoning⟩ := @apply_part_found config text metadata _ _ subject_eq.symm rfl unmatched
    exact ⟨remaining.trans left,reasoning.trans (congrArg _ inners)⟩

end

end Ferrin.Middleware
