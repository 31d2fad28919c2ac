import Ferrin.Middleware.JsonFences
import Ferrin.Middleware.ReasoningStream

/-!
Code fences stripped from a stream of deltas. Up to the blanks around it, what
is told of a part does not depend on how its text was split, and it is what a
complete result is told of the text just when `Alike` holds
(`streamed_fences_iff`).
-/
namespace Ferrin.Middleware.ExtractJson
open List Block Assoc
open Ferrin.Trim (trim)

/-- The texts of which a stream and a complete result tell the same. -/
inductive Alike (text : List Char) : Prop
  /-- The line of the opening fence has not ended. -/
  | unended (opens : fence <+: text) (line : '\n' ∉ text)
  /-- The closing fence overlaps the opening one. -/
  | ticks (ticks : Ticks text)
  /-- There is no other fence line, and no closing fence before what is held back. -/
  | within (known : fence <+: text → (fence_prefix_len text).isSome) (kept : ¬ Overrun ( strip_fence_prefix text))

inductive Opening : List Char → List Char → Prop
  | plain {text} (never : ∀ more, ¬ fence <+: text ++ more) : Opening text text
  | line {rest blanks post} (ended : '\n' ∈ rest) (found : (fence_prefix_len (fence ++ rest)).isSome)
      (blank : Blanks blanks) (split : strip_label rest = blanks ++ post) : Opening (fence ++ rest) post
  | other {rest} (ended : '\n' ∈ rest) (missing : fence_prefix_len (fence ++ rest) = none) :
      Opening (fence ++ rest) (fence ++ rest)

/-- The text is too short for the decision about its opening fence. -/
def Undecided (text : List Char) : Prop := text.length < 3 ∨ fence <+: text ∧ '\n' ∉ text

/-- How far a part has come, with what was read and told of it. -/
inductive Progress (text told : List Char) (b : Block) : Prop
  | ahead (phase : b.phase = .Prefix) (buffer : b.buffer = text) (silent : told = []) (undecided : Undecided text)
  | under (post) (phase : b.phase = .Streaming) (opening : Opening text post) (held : HeldBack post told b.buffer)

/-- The decision about the opening fence. -/
inductive Decided (text : List Char) (b : Block) : Block × List StreamPart → Prop
  | later (undecided : Undecided text) : Decided text b (b,[])
  | now (next) (phase : next.phase = .Streaming) (start : next.start = b.start) (opening : Opening text next.buffer) :
      Decided text b (next,[b.start])

section
variable {text post told : List Char} {b : Block} {id : PartId}

theorem Opening.append (opening : Opening text post) (more : List Char) : Opening (text ++ more) (post ++ more) := by
  cases opening with
  | plain never =>
    refine .plain fun later => ?_
    rw [append_assoc]
    exact never (more ++ later)
  | line ended found blank split =>
    rw [append_assoc]
    refine .line (mem_append_left _ ended) ((fence_prefix_len_append ended).mpr found) blank ?_
    rw [strip_label_append ended,split,append_assoc]
  | other ended missing =>
    rw [append_assoc]
    refine .other (mem_append_left _ ended) (Option.not_isSome_iff_eq_none.mp ?_)
    rw [fence_prefix_len_append ended,missing]
    simp

theorem not_fence_ticks {text : List Char} (ticks : Ticks text) : fence <+: text ∧ fence_prefix_len text = none := by
  obtain ⟨count,blanks,_,rfl,_⟩ := ticks
  obtain ⟨k,rfl⟩ : ∃ k, count = 3 + (k + 1) := ⟨count - 4,by omega⟩
  have split : replicate (3 + (k + 1)) '`' ++ blanks = fence ++ ('`' :: (replicate k '`' ++ blanks)) := by
    rw [replicate_add,append_assoc]
    rfl
  rw [split]
  exact ⟨prefix_append _ _,rfl⟩

theorem Opening.alike_iff {buffer : List Char} (opening : Opening text post) (held : HeldBack post told buffer) :
    trim is_json_fence_whitespace (told ++ strip_markdown_code_fence_suffix buffer) = strip_json_fences text ↔
      Alike text := by
  cases opening with
  | plain never =>
    have plain : ¬ fence <+: text := by simpa using never []
    rw [strip_json_fences,strip_fence_prefix_plain plain,held.agrees_iff]
    constructor
    · intro kept
      exact .within (fun opens => absurd opens plain) (by rwa [strip_fence_prefix_plain plain])
    · rintro (⟨opens,_⟩ | ⟨ticks⟩ | ⟨_,kept⟩)
      · exact absurd opens plain
      · exact absurd (not_fence_ticks ticks).1 plain
      · rwa [strip_fence_prefix_plain plain] at kept
  | @line rest blanks _ ended found blank split =>
    have stripped : ∃ front, Blanks front ∧ post = front ++ strip_fence_prefix (fence ++ rest) := by
      refine ⟨post.takeWhile is_json_fence_whitespace,fun _ mem => mem_takeWhile_imp mem,?_⟩
      rw [strip_fence_prefix_fence,split,Trim.dropWhile_blank blank,takeWhile_append_dropWhile]
    obtain ⟨_,empty,same⟩ := stripped
    have agrees := held.agrees_iff
    rw [same,trim_suffix_blank empty,overrun_blank empty] at agrees
    rw [strip_json_fences,agrees]
    constructor
    · exact fun kept => .within (fun _ => found) kept
    · rintro (⟨_,line⟩ | ⟨ticks⟩ | ⟨_,kept⟩)
      · exact absurd (mem_append_right _ ended) line
      · rw [(not_fence_ticks ticks).2] at found
        cases found
      · exact kept
  | @other rest ended missing =>
    rw [held.other_iff ended missing]
    constructor
    · exact .ticks
    · rintro (⟨_,line⟩ | ⟨ticks⟩ | ⟨known,_⟩)
      · exact absurd (mem_append_right _ ended) line
      · exact ticks
      · have found := known (prefix_append _ _)
        rw [missing] at found
        cases found

/-! ### One part -/

theorem Undecided.alike (undecided : Undecided text) : Alike text := by
  rcases undecided with short | ⟨opens,line⟩
  · have plain : ¬ fence <+: text := by
      intro opens
      have := opens.length_le
      simp only [fence,length_cons,length_nil] at this
      omega
    refine .within (fun opens => absurd opens plain) ?_
    rw [strip_fence_prefix_plain plain]
    rintro ⟨_,_,fenced,_⟩
    rw [fenced.split] at short
    simp only [length_append,fence,length_cons] at short
    omega
  · exact .unended opens line

theorem leave_prefix_decided (b : Block) : Decided b.buffer b b.leave_prefix := by
  unfold leave_prefix
  split_ifs with plain opens line long
  · obtain ⟨some_text,head⟩ := plain
    refine .now _ rfl rfl (.plain fun more opens => ?_)
    obtain ⟨rest,same⟩ := opens
    obtain ⟨c,_,split⟩ := exists_cons_of_ne_nil some_text
    rw [split] at same head
    exact head (congrArg head? same).symm
  · obtain ⟨rest,same⟩ := opens
    rw [← same] at line ⊢
    have ended : '\n' ∈ rest := by
      rcases List.mem_append.mp line with inside | inside
      · exact absurd inside (by decide)
      · exact inside
    cases found : fence_prefix_len (fence ++ rest) with
    | some =>
      obtain ⟨_,blank,split⟩ := drop_fence_line found
      exact .now _ rfl rfl (.line ended (by rw [found]; rfl) blank split)
    | none =>
      refine .now _ rfl rfl ?_
      exact .other ended found
  · exact .later (.inr ⟨opens,line⟩)
  · refine .now _ rfl rfl (.plain fun more later => ?_)
    exact opens (prefix_of_prefix_length_le later (prefix_append _ _) long)
  · exact .later (.inl (Nat.not_le.mp long))

theorem textOf_start {id : PartId} (start : ∃ other metadata, b.start = .TextStart other metadata) : textOf id [b.start] = [] := by
  obtain ⟨_,_,same⟩ := start
  rw [same]
  rfl

theorem textOf_delta (id : PartId) (delta : List Char) (metadata : Option ProviderMetadata) :
    textOf id [.TextDelta id (String.ofList delta) metadata] = delta := by
  simp [textOf]

theorem hold_back_held (split : told ++ b.buffer = post) (full : told ≠ [] → SUFFIX_BUFFER_CHARS ≤ b.buffer.length) :
    HeldBack post (told ++ textOf id (b.hold_back id).2) (b.hold_back id).1.buffer ∧
      (b.hold_back id).1.phase = b.phase ∧ (b.hold_back id).1.start = b.start := by
  unfold hold_back
  dsimp only
  split_ifs with long
  · refine ⟨⟨?_,?_,fun _ => ?_⟩,rfl,rfl⟩
    · rw [textOf_delta,append_assoc,take_append_drop,split]
    · rw [length_drop]
      omega
    · rw [length_drop]
      omega
  · rw [show textOf id [] = [] from rfl,append_nil]
    exact ⟨⟨split,Nat.not_lt.mp long,fun some_told => Nat.le_antisymm (Nat.not_lt.mp long) (full some_told)⟩,rfl,rfl⟩

theorem Progress.process_delta (progress : Progress text told b) (start : ∃ other metadata, b.start = .TextStart other metadata)
    (delta : List Char) :
    Progress (text ++ delta) (told ++ textOf id (b.process_delta id delta).2) (b.process_delta id delta).1 ∧
      (b.process_delta id delta).1.start = b.start := by
  obtain ⟨first,_,buffer,stripped⟩ := b
  rw [Block.process_delta]
  cases progress with
  | ahead phase same silent undecided =>
    cases phase
    cases same
    cases silent
    have decided := leave_prefix_decided ⟨first,.Prefix,buffer ++ delta,stripped⟩
    simp only [reduceCtorEq,if_false,if_true]
    generalize leave_prefix _ = left at decided ⊢
    cases decided with
    | later undecided => exact ⟨.ahead rfl rfl rfl undecided,rfl⟩
    | now next streams same opening =>
      have sent := @hold_back_held next.buffer [] next id rfl (fun some_told => absurd rfl some_told)
      simp only [streams,if_true,textOf_append]
      rw [textOf_start start]
      exact ⟨.under _ (sent.2.1.trans streams) opening sent.1,sent.2.2.trans same⟩
  | under post phase opening held =>
    cases phase
    have sent := @hold_back_held (post ++ delta) told ⟨first,.Streaming,buffer ++ delta,stripped⟩ id
      (by rw [← held.split,append_assoc])
      (fun some_told => (held.full some_told).symm.le.trans (length_append ▸ Nat.le_add_right _ _))
    simp only [reduceCtorEq,if_false,if_true,nil_append]
    exact ⟨.under _ sent.2.1 (opening.append delta) sent.1,sent.2.2⟩

theorem textOf_finish {transform : Option JsonTransformFn} (start : ∃ other metadata, b.start = .TextStart other metadata) :
    textOf id (b.finish transform id) = b.remaining transform := by
  rw [finish,textOf_append]
  have started : textOf id (if b.phase = .Streaming then [] else [b.start]) = [] := by
    split_ifs
    · rfl
    · exact textOf_start start
  rw [started,nil_append]
  split_ifs with nothing
  · exact nothing.symm
  · exact textOf_delta id _ none

theorem Progress.alike_iff (progress : Progress text told b) :
    trim is_json_fence_whitespace (told ++ b.remaining none) = strip_json_fences text ↔ Alike text := by
  cases progress with
  | ahead phase buffer silent undecided =>
    subst silent buffer
    have left : b.remaining none = strip_json_fences b.buffer := by simp only [remaining,phase]
    rw [left,nil_append]
    exact iff_of_true Trim.trim_trim undecided.alike
  | under _ phase opening held =>
    have left : b.remaining none = strip_markdown_code_fence_suffix b.buffer := by simp only [remaining,phase]
    rw [left]
    exact opening.alike_iff held

end

inductive Rest (id : PartId) : List StreamPart → Prop
  | other {part rest} (apart : textId part ≠ some id) (later : Rest id rest) : Rest id (part :: rest)
  | delta {delta metadata rest} (later : Rest id rest) : Rest id (.TextDelta id delta metadata :: rest)
  | ended {metadata rest} (spent : ∀ part ∈ rest, textId part ≠ some id) : Rest id (.TextEnd id metadata :: rest)

inductive Whole (id : PartId) : List StreamPart → Prop
  | other {part rest} (apart : textId part ≠ some id) (later : Whole id rest) : Whole id (part :: rest)
  | start {metadata rest} (later : Rest id rest) : Whole id (.TextStart id metadata :: rest)

structure Sound (s : StreamState) : Prop where
  default : s.transform = none
  starts : ∀ id b, s.blocks.lookup id = some b → ∃ other metadata, b.start = .TextStart other metadata

section
variable {s : StreamState} {id : PartId} {part : StreamPart} {parts : List StreamPart}

theorem textOf_other (apart : textId part ≠ some id) : textOf id [part] = [] := by
  cases part
  case TextDelta other delta metadata =>
    have differs : other ≠ id := fun same => apart (congrArg some same)
    simp [textOf,differs]
  all_goals rfl

theorem textOf_cons (id : PartId) (part : StreamPart) (parts : List StreamPart) :
    textOf id (part :: parts) = textOf id [part] ++ textOf id parts := textOf_append id [part] parts

theorem process_delta_start (b : Block) (id : PartId) (delta : List Char) : (b.process_delta id delta).1.start = b.start := by
  have kept (b : Block) : (b.hold_back id).1.start = b.start := by
    unfold hold_back
    dsimp only
    split_ifs <;> rfl
  have decided (b : Block) : b.leave_prefix.1.start = b.start := by
    have made := leave_prefix_decided b
    generalize b.leave_prefix = left at made
    cases made with
    | later => rfl
    | now _ _ start => exact start
  unfold Block.process_delta
  dsimp only
  split_ifs
  · rfl
  all_goals simp [kept,decided]

theorem Sound.process (sound : Sound s) (part : StreamPart) : Sound (s.process part).1 := by
  cases part
  case TextStart id metadata =>
    refine ⟨sound.default,fun other b found => ?_⟩
    rw [StreamState.process,lookup_put] at found
    by_cases same : other = id
    · rw [if_pos same] at found
      cases found
      exact ⟨id,metadata,rfl⟩
    · rw [if_neg same] at found
      exact sound.starts other b found
  case TextDelta id delta metadata =>
    rw [StreamState.process]
    cases known : s.blocks.lookup id with
    | none => exact sound
    | some block =>
      refine ⟨sound.default,fun other b found => ?_⟩
      rw [lookup_put] at found
      split_ifs at found
      · cases found
        rw [process_delta_start]
        exact sound.starts id block known
      · exact sound.starts other b found
  case TextEnd id metadata =>
    rw [StreamState.process]
    cases known : s.blocks.lookup id with
    | none => exact sound
    | some =>
      refine ⟨sound.default,fun other b found => ?_⟩
      rw [lookup_remove] at found
      split_ifs at found
      exact sound.starts other b found
  all_goals exact sound

theorem process_delta_apart {b : Block} {other : PartId} (start : ∃ other metadata, b.start = .TextStart other metadata)
    (differs : id ≠ other) (delta : List Char) : textOf id (b.process_delta other delta).2 = [] := by
  have sent (b : Block) : textOf id (b.hold_back other).2 = [] := by
    unfold hold_back
    dsimp only
    split_ifs
    · simp [textOf,differs.symm]
    · rfl
  have started : textOf id ( leave_prefix { b with buffer := b.buffer ++ delta }).2 = [] := by
    have made := leave_prefix_decided { b with buffer := b.buffer ++ delta }
    generalize leave_prefix _ = left at made
    cases made with
    | later => rfl
    | now => exact @textOf_start { b with buffer := b.buffer ++ delta } id start
  unfold Block.process_delta
  dsimp only
  split_ifs
  · rfl
  · rw [textOf_append,started,sent]
    rfl
  · exact started
  · rw [textOf_append,sent]
    rfl
  · rfl

theorem finish_apart {b : Block} {other : PartId} {transform : Option JsonTransformFn}
    (start : ∃ other metadata, b.start = .TextStart other metadata) (differs : id ≠ other) :
    textOf id (b.finish transform other) = [] := by
  rw [finish,textOf_append]
  split_ifs
  · rfl
  · simp [textOf,differs.symm]
  · rw [textOf_start start]
    rfl
  · rw [textOf_start start]
    simp [textOf,differs.symm]

theorem process_other (sound : Sound s) (apart : textId part ≠ some id) :
    (s.process part).1.blocks.lookup id = s.blocks.lookup id ∧ textOf id (s.process part).2 = [] := by
  cases part
  case TextStart other metadata =>
    have differs : id ≠ other := fun same => apart (congrArg some same.symm)
    exact ⟨by rw [StreamState.process,lookup_put,if_neg differs],rfl⟩
  case TextDelta other delta metadata =>
    have differs : id ≠ other := fun same => apart (congrArg some same.symm)
    rw [StreamState.process]
    cases known : s.blocks.lookup other with
    | none => exact ⟨rfl,textOf_other apart⟩
    | some block =>
      exact ⟨by rw [lookup_put,if_neg differs],
        process_delta_apart (sound.starts other block known) differs delta.toList⟩
  case TextEnd other metadata =>
    have differs : id ≠ other := fun same => apart (congrArg some same.symm)
    rw [StreamState.process]
    cases known : s.blocks.lookup other with
    | none => exact ⟨rfl,textOf_other apart⟩
    | some block =>
      refine ⟨by rw [lookup_remove,if_neg differs],?_⟩
      rw [textOf_append,finish_apart (sound.starts other block known) differs,textOf_other apart]
      rfl
  all_goals exact ⟨rfl,rfl⟩

theorem process_all_cons (s : StreamState) (part : StreamPart) (rest : List StreamPart) (id : PartId) :
    textOf id (s.process_all (part :: rest)).2 =
      textOf id (s.process part).2 ++ textOf id ((s.process part).1.process_all rest).2 :=
  textOf_append id _ _

theorem process_all_none : ∀ (parts : List StreamPart) (s : StreamState), Sound s →
    (∀ part ∈ parts, textId part ≠ some id) →
    textOf id (s.process_all parts).2 = [] ∧ textOf id parts = [] := by
  intro parts
  induction parts with
  | nil => exact fun _ _ _ => ⟨rfl,rfl⟩
  | cons part _ ih =>
    intro s sound apart
    obtain ⟨later,read⟩ := ih _ (sound.process part) fun p mem => apart p (mem_cons_of_mem part mem)
    have here := apart part mem_cons_self
    rw [process_all_cons,textOf_cons,(process_other sound here).2,textOf_other here,later,read]
    exact ⟨rfl,rfl⟩

theorem process_rest (rest : Rest id parts) : ∀ {s : StreamState} {text told : List Char} {b : Block}, Sound s →
    s.blocks.lookup id = some b → Progress text told b →
    (trim is_json_fence_whitespace (told ++ textOf id (s.process_all parts).2) =
      strip_json_fences (text ++ textOf id parts) ↔ Alike (text ++ textOf id parts)) := by
  induction rest with
  | @other part rest apart _ ih =>
    intro s text told b sound known progress
    obtain ⟨kept,silent⟩ := process_other sound apart
    rw [process_all_cons,textOf_cons,silent,textOf_other apart]
    exact ih (sound.process part) (kept.trans known) progress
  | @delta delta metadata rest _ ih =>
    intro s text told b sound known progress
    have processed : s.process (.TextDelta id delta metadata) =
        ({ s with blocks := put s.blocks id (b.process_delta id delta.toList).1 },(b.process_delta id delta.toList).2) := by
      rw [StreamState.process,known]
    have read : textOf id [.TextDelta id delta metadata] = delta.toList := by simp [textOf]
    have next := (@Progress.process_delta text told b id progress (sound.starts id b known) delta.toList).1
    rw [process_all_cons,textOf_cons,read,← append_assoc,← append_assoc]
    have found : (s.process (.TextDelta id delta metadata)).1.blocks.lookup id =
        some (b.process_delta id delta.toList).1 := by
      rw [processed,lookup_put,if_pos rfl]
    have told_next : textOf id (s.process (.TextDelta id delta metadata)).2 =
        textOf id (b.process_delta id delta.toList).2 := by rw [processed]
    rw [told_next]
    exact ih (sound.process _) found next
  | @ended metadata rest spent =>
    intro s text told b sound known progress
    have processed : (s.process (.TextEnd id metadata)).2 = b.finish s.transform id ++ [.TextEnd id metadata] := by
      rw [StreamState.process,known]
    obtain ⟨silent,read⟩ := @process_all_none id rest _ (sound.process (.TextEnd id metadata)) spent
    rw [process_all_cons,textOf_cons,silent,read,processed,textOf_append,textOf_finish (sound.starts id b known),
      sound.default]
    simpa [textOf] using progress.alike_iff

theorem process_whole (whole : Whole id parts) : ∀ {s : StreamState}, Sound s →
    (trim is_json_fence_whitespace (textOf id (s.process_all parts).2) = strip_json_fences (textOf id parts) ↔
      Alike (textOf id parts)) := by
  induction whole with
  | @other part rest apart _ ih =>
    intro s sound
    rw [process_all_cons,textOf_cons,(process_other sound apart).2,textOf_other apart]
    exact ih (sound.process part)
  | @start metadata rest later =>
    intro s sound
    have processed : s.process (.TextStart id metadata) =
        ({ s with blocks := put s.blocks id ⟨.TextStart id metadata,.Prefix,[],false⟩ },[]) := by
      simp [StreamState.process,sound.default]
    have found : (s.process (.TextStart id metadata)).1.blocks.lookup id =
        some ⟨.TextStart id metadata,.Prefix,[],false⟩ := by
      rw [processed,lookup_put,if_pos rfl]
    have progress : Progress [] [] ⟨.TextStart id metadata,.Prefix,[],false⟩ :=
      .ahead rfl rfl rfl (.inl (by decide))
    have told := process_rest later (sound.process (.TextStart id metadata)) found progress
    have silent : textOf id (s.process (.TextStart id metadata)).2 = [] := by rw [processed]; rfl
    rw [process_all_cons,textOf_cons,silent]
    exact told

/-- What is told of a part is what a complete result is told of its text, up to the blanks around it, just when the
text is alike for the two. -/
theorem streamed_fences_iff (whole : Whole id parts) :
    trim is_json_fence_whitespace (textOf id (extract_json.apply_stream parts)) =
      extract_json.run_transform (textOf id parts) ↔ Alike (textOf id parts) :=
  process_whole whole ⟨rfl,fun _ _ known => by cases known⟩

/-- A closing fence that ends before the last twelve characters stays in the stream. -/
theorem streamed_fence_stays : trim is_json_fence_whitespace (textOf "0" (extract_json.apply_stream
      [.TextStart "0" none,.TextDelta "0" "```json\n{}\n```          " none,.TextEnd "0" none])) ≠
    extract_json.run_transform "```json\n{}\n```          ".toList := by
  decide

theorem streamed_fences_iff_json :
    trim is_json_fence_whitespace (textOf "0" (extract_json.apply_stream
      [.TextStart "0" none,.TextDelta "0" "```js" none,.TextDelta "0" "on\n{}\n``" none,.TextDelta "0" "`\n" none,.TextEnd "0" none])) =
      extract_json.run_transform "```json\n{}\n```\n".toList ↔ Alike "```json\n{}\n```\n".toList :=
  streamed_fences_iff (.start (.delta (.delta (.delta (.ended fun _ member => by cases member)))))

end

end Ferrin.Middleware.ExtractJson
