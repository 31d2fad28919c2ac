import Ferrin.Middleware.ExtractJson

/-!
The fences of a text: the closing one, which a stream takes off the characters
it holds back (`HeldBack.agrees_iff`), and the opening one, which it takes off
once its line has ended (`drop_fence_line`).
-/
namespace Ferrin.Middleware.ExtractJson
open List Trim
open Ferrin.Trim (trim Blank Ends)

abbrev Blanks (text : List Char) : Prop := Blank is_json_fence_whitespace text

abbrev Fenced (text body blanks : List Char) : Prop := Ends is_json_fence_whitespace fence text body blanks

/-- The closing fence lies before the last characters. -/
def Overrun (text : List Char) : Prop :=
  ∃ body blanks, Fenced text body blanks ∧ SUFFIX_BUFFER_CHARS < fence.length + blanks.length

section
variable {text body blanks told buffer : List Char}

theorem fence_solid : Trim.Solid is_json_fence_whitespace fence := .of_all (by decide) (by decide)

/-! ### The closing fence -/

theorem suffix_fenced (fenced : Fenced text body blanks) : ∃ line, Blanks line ∧ strip_fence_suffix text ++ line = body := by
  have found : (body ++ fence).dropSuffix? fence = some body :=
    List.dropSuffix?_eq_some_iff.mpr ⟨fence,rfl,by decide⟩
  rw [strip_fence_suffix,fenced.rdropWhile fence_solid,found]
  dsimp only
  cases newline : body.dropSuffix? ['\n'] with
  | none => exact ⟨[],(fun _ mem => (not_mem_nil mem).elim),append_nil body⟩
  | some =>
    obtain ⟨_,rfl,same⟩ := List.dropSuffix?_eq_some_iff.mp newline
    obtain rfl := eq_of_beq same
    exact ⟨['\n'],List.forall_mem_singleton.mpr rfl,rfl⟩

theorem suffix_open (unfenced : ¬ ∃ body blanks, Fenced text body blanks) : strip_fence_suffix text = text := by
  unfold strip_fence_suffix
  cases found : (text.rdropWhile is_json_fence_whitespace).dropSuffix? fence with
  | none => rfl
  | some rest =>
    obtain ⟨_,same,mark⟩ := List.dropSuffix?_eq_some_iff.mp found
    obtain rfl := eq_of_beq mark
    exact absurd ((ends_iff fence_solid).mp ⟨rest,same.symm⟩) unfenced

theorem trim_suffix (fenced : Fenced text body blanks) :
    trim is_json_fence_whitespace (strip_fence_suffix text) = trim is_json_fence_whitespace body := by
  obtain ⟨_,empty,rfl⟩ := suffix_fenced fenced
  exact (trim_blank_right empty).symm

theorem Fenced.unique {body' blanks' : List Char} (fenced : Fenced text body blanks) (fenced' : Fenced text body' blanks') :
    blanks = blanks' := by
  have bodies := (fenced.rdropWhile fence_solid).symm.trans (fenced'.rdropWhile fence_solid)
  have texts := fenced.split.symm.trans fenced'.split
  rw [bodies] at texts
  exact append_cancel_left texts

theorem Fenced.trim_ne (fenced : Fenced text body blanks) :
    trim is_json_fence_whitespace text ≠ trim is_json_fence_whitespace body := by
  intro same
  rw [fenced.split,trim_blank_right fenced.blank] at same
  have whole : trim is_json_fence_whitespace (body ++ fence) = body.dropWhile is_json_fence_whitespace ++ fence := by
    have kept := @rdropWhile_solid _ _ (body.dropWhile is_json_fence_whitespace) [] _ fence_solid
    rw [trim,dropWhile_append]
    split_ifs with gone
    · rw [List.isEmpty_iff.mp gone]
      rfl
    · simpa using kept
  have longer := congrArg List.length (whole.symm.trans same)
  have bound : (trim is_json_fence_whitespace body).length ≤ (body.dropWhile is_json_fence_whitespace).length :=
    ( rdropWhile_prefix _ _).length_le
  simp only [length_append,fence,length_cons] at longer
  omega

theorem trim_suffix_blank (empty : Blanks blanks) :
    trim is_json_fence_whitespace (strip_fence_suffix (blanks ++ text)) =
      trim is_json_fence_whitespace (strip_fence_suffix text) := by
  by_cases fenced : ∃ body after, Fenced (blanks ++ text) body after
  · obtain ⟨body,after,fenced⟩ := fenced
    obtain ⟨_,rfl,inner⟩ := Ends.body_of_blank fence_solid empty fenced
    rw [trim_suffix fenced,trim_suffix inner,trim_blank_left empty]
  · have unfenced : ¬ ∃ body after, Fenced text body after := by
      rintro ⟨body,after,inner⟩
      exact fenced ⟨blanks ++ body,after,by simp [inner.split],inner.blank⟩
    rw [suffix_open fenced,suffix_open unfenced,trim_blank_left empty]

theorem overrun_blank (empty : Blanks blanks) : Overrun (blanks ++ text) ↔ Overrun text := by
  constructor
  · rintro ⟨body,after,fenced,far⟩
    obtain ⟨rest,_,inner⟩ := Ends.body_of_blank fence_solid empty fenced
    exact ⟨rest,after,inner,far⟩
  · rintro ⟨body,after,inner,far⟩
    exact ⟨blanks ++ body,after,⟨by simp [inner.split],inner.blank⟩,far⟩

/-- All but the last characters were sent on. -/
structure HeldBack (text told buffer : List Char) : Prop where
  split : told ++ buffer = text
  short : buffer.length ≤ SUFFIX_BUFFER_CHARS
  full : told ≠ [] → buffer.length = SUFFIX_BUFFER_CHARS

theorem HeldBack.fenced (held : HeldBack text told buffer) (fenced : Fenced text body blanks)
    (near : fence.length + blanks.length ≤ SUFFIX_BUFFER_CHARS) :
    trim is_json_fence_whitespace (told ++ strip_markdown_code_fence_suffix buffer) =
      trim is_json_fence_whitespace body := by
  have inside : ∃ rest, body = told ++ rest ∧ Fenced buffer rest blanks := by
    have texts := held.split.trans fenced.split
    rw [append_assoc,append_eq_append_iff] at texts
    rcases texts with ⟨rest,bodies,buffers⟩ | ⟨excess,tolds,tail⟩
    · exact ⟨rest,bodies,by rw [buffers,append_assoc],fenced.blank⟩
    · have none_over : excess = [] := by
        by_contra some_over
        have full := held.full (by simp [tolds,some_over])
        have lengths := congrArg List.length tail
        have := List.length_pos_iff.mpr some_over
        simp only [length_append] at lengths
        omega
      subst none_over
      exact ⟨[],by simpa using tolds.symm,by simpa using tail.symm,fenced.blank⟩
  obtain ⟨_,rfl,inner⟩ := inside
  obtain ⟨_,empty,rfl⟩ := suffix_fenced inner
  rw [strip_markdown_code_fence_suffix,trim_append_rdropWhile,← trim_blank_right empty,append_assoc]

theorem HeldBack.unfenced (held : HeldBack text told buffer)
    (far : ∀ body blanks, Fenced text body blanks → SUFFIX_BUFFER_CHARS < fence.length + blanks.length) :
    trim is_json_fence_whitespace (told ++ strip_markdown_code_fence_suffix buffer) =
      trim is_json_fence_whitespace text := by
  have unfenced : ¬ ∃ body blanks, Fenced buffer body blanks := by
    rintro ⟨body,blanks,inner⟩
    have far := far (told ++ body) blanks ⟨by rw [← held.split,inner.split]; simp,inner.blank⟩
    have short := held.short
    rw [inner.split] at short
    simp only [length_append] at short
    omega
  rw [strip_markdown_code_fence_suffix,trim_append_rdropWhile,suffix_open unfenced,held.split]

theorem HeldBack.agrees_iff (held : HeldBack text told buffer) :
    trim is_json_fence_whitespace (told ++ strip_markdown_code_fence_suffix buffer) =
      trim is_json_fence_whitespace (strip_fence_suffix text) ↔ ¬ Overrun text := by
  by_cases fenced : ∃ body blanks, Fenced text body blanks
  · obtain ⟨body,blanks,fenced⟩ := fenced
    rw [trim_suffix fenced]
    by_cases near : fence.length + blanks.length ≤ SUFFIX_BUFFER_CHARS
    · rw [held.fenced fenced near]
      refine iff_of_true rfl ?_
      rintro ⟨_,_,other,far⟩
      rw [← Fenced.unique fenced other] at far
      omega
    · have far : SUFFIX_BUFFER_CHARS < fence.length + blanks.length := by omega
      rw [held.unfenced fun body' blanks' other => Fenced.unique fenced other ▸ far]
      exact iff_of_false (Fenced.trim_ne fenced) (not_not_intro ⟨body,blanks,fenced,far⟩)
  · rw [held.unfenced fun body blanks other => absurd ⟨body,blanks,other⟩ fenced,suffix_open fenced]
    refine iff_of_true rfl ?_
    rintro ⟨body,blanks,other,_⟩
    exact fenced ⟨body,blanks,other⟩

variable {rest more : List Char} {ch : Char} {count : Nat}

theorem strip_label_some (labelled : text.dropPrefix? ['j','s','o','n'] = some rest) :
    text = ['j','s','o','n'] ++ rest := by
  obtain ⟨_,rfl,same⟩ := List.dropPrefix?_eq_some_iff.mp labelled
  rw [eq_of_beq same]

theorem strip_label_split (text : List Char) :
    text = ['j','s','o','n'] ++ strip_label text ∨ (text = strip_label text ∧ ¬ ['j','s','o','n'] <+: text) := by
  unfold strip_label
  cases labelled : text.dropPrefix? ['j','s','o','n'] with
  | some => exact .inl (strip_label_some labelled)
  | none =>
    refine .inr ⟨rfl,?_⟩
    rintro ⟨rest,rfl⟩
    rw [dropPrefix?_append_of_beq rest BEq.rfl] at labelled
    cases labelled

theorem strip_label_append (line : '\n' ∈ text) : strip_label (text ++ more) = strip_label text ++ more := by
  rcases strip_label_split text with same | ⟨same,plain⟩
  · have labelled : (text ++ more).dropPrefix? ['j','s','o','n'] = some (strip_label text ++ more) := by
      nth_rewrite 1 [same]
      rw [append_assoc]
      exact dropPrefix?_append_of_beq _ BEq.rfl
    rw [strip_label,labelled]
    rfl
  · rw [← same]
    rcases strip_label_split (text ++ more) with labelled | ⟨whole,_⟩
    · -- a label that is not there yet has no newline
      exfalso
      have label : ['j','s','o','n'] <+: text ++ more := ⟨_,labelled.symm⟩
      rcases prefix_or_prefix_of_prefix label (prefix_append text more) with early | late
      · exact plain early
      · exact absurd (late.subset line) (by decide)
    · exact whole.symm

theorem newline_label (line : '\n' ∈ text) : '\n' ∈ strip_label text := by
  rcases strip_label_split text with same | ⟨same,_⟩
  · rw [same] at line
    simpa using line
  · rwa [← same]

theorem rfind_some {i : Nat} (found : rfind ch text = some i) : i < text.length := by
  induction text generalizing i with
  | nil => cases found
  | cons _ _ ih =>
    unfold rfind at found
    split at found
    case h_1 j later =>
      cases found
      exact Nat.succ_lt_succ (ih later)
    case h_2 =>
      obtain ⟨_,rfl⟩ := (Option.ite_none_right_eq_some.mp found).imp_right Option.some.inj
      exact Nat.succ_pos _

theorem rfind_isSome : (rfind ch text).isSome ↔ ch ∈ text := by
  induction text with
  | nil => simp [rfind]
  | cons c rest ih =>
    rw [rfind,mem_cons,← ih]
    cases later : rfind ch rest with
    | some => simp
    | none =>
      dsimp only
      split_ifs with here
      · simp [here]
      · simp [Ne.symm here]

/-- The text begins with a fence whose line is `rest`. -/
theorem fence_prefix_len_fence (rest : List Char) : fence_prefix_len (fence ++ rest) =
    (rfind '\n' ((strip_label rest).takeWhile is_json_fence_whitespace)).map
      ((fence ++ rest).length - (strip_label rest).length + · + 1) := by
  rw [fence_prefix_len,dropPrefix?_append_of_beq rest BEq.rfl]
  simp only [Option.bind_eq_bind,Option.bind_some]
  cases rfind '\n' ((strip_label rest).takeWhile is_json_fence_whitespace) <;> rfl

theorem fence_prefix_len_isSome (rest : List Char) : (fence_prefix_len (fence ++ rest)).isSome ↔
    '\n' ∈ (strip_label rest).takeWhile is_json_fence_whitespace := by
  rw [fence_prefix_len_fence,Option.isSome_map,rfind_isSome]

theorem newline_takeWhile (line : '\n' ∈ text) :
    '\n' ∈ (text ++ more).takeWhile is_json_fence_whitespace ↔ '\n' ∈ text.takeWhile is_json_fence_whitespace := by
  rw [takeWhile_append]
  split_ifs with whole
  · have same : text.takeWhile is_json_fence_whitespace = text := ( takeWhile_prefix _).eq_of_length whole
    rw [same]
    exact iff_of_true (mem_append_left _ line) line
  · rfl

theorem fence_prefix_len_append (line : '\n' ∈ rest) :
    (fence_prefix_len (fence ++ (rest ++ more))).isSome ↔ (fence_prefix_len (fence ++ rest)).isSome := by
  rw [fence_prefix_len_isSome,fence_prefix_len_isSome,strip_label_append line,newline_takeWhile (newline_label line)]

theorem strip_fence_prefix_fence (rest : List Char) :
    strip_fence_prefix (fence ++ rest) = (strip_label rest).dropWhile is_json_fence_whitespace := by
  rw [ strip_fence_prefix,dropPrefix?_append_of_beq rest BEq.rfl]

theorem strip_fence_prefix_plain (plain : ¬ fence <+: text) : strip_fence_prefix text = text := by
  unfold strip_fence_prefix
  cases found : text.dropPrefix? fence with
  | none => rfl
  | some rest =>
    obtain ⟨_,rfl,same⟩ := List.dropPrefix?_eq_some_iff.mp found
    exact absurd ⟨rest,by rw [eq_of_beq same]⟩ plain

theorem drop_fence_line {len : Nat} (found : fence_prefix_len (fence ++ rest) = some len) :
    ∃ blanks, Blanks blanks ∧ strip_label rest = blanks ++ (fence ++ rest).drop len := by
  rw [fence_prefix_len_fence,Option.map_eq_some_iff] at found
  obtain ⟨i,place,rfl⟩ := found
  have inside := rfind_some place
  refine ⟨(strip_label rest).take (i + 1),fun c mem => ?_,?_⟩
  · have short : (strip_label rest).take (i + 1) <+: (strip_label rest).takeWhile is_json_fence_whitespace := by
      refine prefix_of_prefix_length_le ( take_prefix _ _) ( takeWhile_prefix _) ?_
      rw [length_take]
      omega
    exact mem_takeWhile_imp (short.subset mem)
  · have before : ∃ front, fence ++ rest = front ++ strip_label rest := by
      rcases strip_label_split rest with same | ⟨same,_⟩
      · exact ⟨fence ++ ['j','s','o','n'],by rw [append_assoc,← same]⟩
      · exact ⟨fence,by rw [← same]⟩
    obtain ⟨front,whole⟩ := before
    have place : (fence ++ rest).length - (strip_label rest).length + i + 1 = front.length + (i + 1) := by
      rw [whole,length_append]
      omega
    rw [place,whole,drop_length_add_append,take_append_drop]

/-! ### An opening fence that is not taken off the stream -/

theorem trim_suffix_fenced_length (fenced : Fenced text body blanks) :
    (trim is_json_fence_whitespace (strip_fence_suffix text)).length + fence.length ≤
      (text.rdropWhile is_json_fence_whitespace).length := by
  have bound := (@trim_length _ is_json_fence_whitespace body).trans ( rdropWhile_prefix _ _).length_le
  rw [trim_suffix fenced,fenced.rdropWhile fence_solid,length_append]
  omega

theorem trim_suffix_length :
    (trim is_json_fence_whitespace (strip_fence_suffix text)).length ≤ (text.rdropWhile is_json_fence_whitespace).length := by
  by_cases fenced : ∃ body blanks, Fenced text body blanks
  · obtain ⟨_,_,fenced⟩ := fenced
    exact (Nat.le_add_right _ _).trans (trim_suffix_fenced_length fenced)
  · rw [suffix_open fenced]
    exact trim_length

theorem other_line (line : '\n' ∈ rest) (missing : fence_prefix_len (fence ++ rest) = none) :
    ∃ front c after, rest = front ++ c :: after ∧ is_json_fence_whitespace c = false ∧
      strip_fence_prefix (fence ++ rest) = c :: after := by
  have unread : ¬ '\n' ∈ (strip_label rest).takeWhile is_json_fence_whitespace := by
    rw [← fence_prefix_len_isSome,missing]
    simp
  have split := @takeWhile_append_dropWhile _ is_json_fence_whitespace (strip_label rest)
  rw [strip_fence_prefix_fence]
  cases left : (strip_label rest).dropWhile is_json_fence_whitespace with
  | nil =>
    rw [left,append_nil] at split
    rw [split] at unread
    exact absurd (newline_label line) unread
  | cons c after =>
    have solid : is_json_fence_whitespace c = false := by
      have first := head_dropWhile_not is_json_fence_whitespace (by rw [left]; exact cons_ne_nil c after)
      simpa [left] using first
    rw [left] at split
    rcases strip_label_split rest with same | ⟨same,_⟩
    · exact ⟨['j','s','o','n'] ++ (strip_label rest).takeWhile is_json_fence_whitespace,c,after,
        by rw [append_assoc,split,← same],solid,rfl⟩
    · exact ⟨(strip_label rest).takeWhile is_json_fence_whitespace,c,after,by rw [split,← same],solid,rfl⟩

/-- Four or five backticks, and blanks after them. -/
def Ticks (text : List Char) : Prop :=
  ∃ count blanks, (count = 4 ∨ count = 5) ∧ text = List.replicate count '`' ++ blanks ∧ Blanks blanks ∧
    fence.length + blanks.length ≤ SUFFIX_BUFFER_CHARS

theorem fenced_ticks (blank : Blanks blanks) :
    Fenced (List.replicate (count + 3) '`' ++ blanks) (List.replicate count '`') blanks :=
  ⟨by rw [replicate_add]; rfl,blank⟩

theorem strip_ticks (few : count = 1 ∨ count = 2) (blank : Blanks blanks) :
    strip_json_fences (List.replicate (count + 3) '`' ++ blanks) =
      trim is_json_fence_whitespace (List.replicate count '`') := by
  have solid : Trim.Solid is_json_fence_whitespace (replicate count '`') := by
    rcases few with rfl | rfl <;> exact .of_all (by decide) (by decide)
  have start : replicate (count + 3) '`' ++ blanks = fence ++ (replicate count '`' ++ blanks) := by
    rw [Nat.add_comm,replicate_add,append_assoc]
    rfl
  have label : strip_label (replicate count '`' ++ blanks) = replicate count '`' ++ blanks := by
    rcases few with rfl | rfl <;> rfl
  have unfenced : ¬ ∃ body after, Fenced (replicate count '`' ++ blanks) body after := by
    rw [← ends_iff fence_solid,rdropWhile_blank blank]
    rcases few with rfl | rfl <;> decide
  rw [strip_json_fences,start,strip_fence_prefix_fence,label,dropWhile_solid solid,suffix_open unfenced,
    trim_blank_right blank]

theorem closing_place (fenced : Fenced (fence ++ rest) body blanks) (filled : ¬ Blanks rest) :
    (∃ inner, body = fence ++ inner ∧ rest = inner ++ (fence ++ blanks)) ∨
      ∃ count, (count = 1 ∨ count = 2) ∧ body = List.replicate count '`' := by
  have split := fenced.split
  rw [append_assoc,append_eq_append_iff] at split
  rcases split with ⟨inner,bodies,rests⟩ | ⟨excess,fences,tail⟩
  · exact .inl ⟨inner,bodies,rests⟩
  · have ticks : body = replicate body.length '`' := by
      refine eq_replicate_of_mem fun c mem => ?_
      have inside : c ∈ fence := by simp [fences,mem]
      simpa [fence] using inside
    have lengths := congrArg List.length fences
    simp only [length_append,fence,length_cons,length_nil] at lengths
    have few : body.length = 0 ∨ (body.length = 1 ∨ body.length = 2) ∨ body.length = 3 := by omega
    rcases few with none_before | few | _
    · rw [eq_nil_of_length_eq_zero none_before,nil_append] at fences
      rw [fences] at tail
      exact absurd (append_cancel_left tail ▸ fenced.blank) filled
    · exact .inr ⟨body.length,few,ticks⟩
    · have nothing : excess = [] := eq_nil_of_length_eq_zero (by omega)
      rw [nothing,append_nil] at fences
      rw [nothing,nil_append] at tail
      exact .inl ⟨[],by rw [fences,append_nil],tail.symm⟩

theorem other_shorter {front after inner : List Char} {c : Char} (solid : is_json_fence_whitespace c = false)
    (rest_split : rest = front ++ c :: after) (closed : rest = inner ++ (fence ++ blanks)) (blank : Blanks blanks) :
    (trim is_json_fence_whitespace (strip_fence_suffix (c :: after))).length <
      fence.length + (inner.rdropWhile is_json_fence_whitespace).length := by
  rw [closed] at rest_split
  rcases List.append_eq_append_iff.mp rest_split with ⟨excess,_,tail⟩ | ⟨more,inners,tail⟩
  · -- what is left begins within the closing fence
    have first : Trim.Solid is_json_fence_whitespace [c] := ⟨by simp,by simpa using solid⟩
    have whole : (fence ++ blanks).rdropWhile is_json_fence_whitespace = fence := by
      simpa [List.rdropWhile_eq_nil_iff.mpr blank] using @rdropWhile_solid _ _ [] blanks _ fence_solid
    have kept : (c :: after).rdropWhile is_json_fence_whitespace = c :: after.rdropWhile is_json_fence_whitespace :=
      @rdropWhile_solid _ _ [] after _ first
    have cut : (excess ++ c :: after).rdropWhile is_json_fence_whitespace =
        excess ++ (c :: after).rdropWhile is_json_fence_whitespace := by
      rw [rdropWhile_append,kept,if_neg (cons_ne_nil _ _)]
    rw [tail,cut] at whole
    have lengths := congrArg List.length whole
    rw [length_append] at lengths
    cases excess with
    | nil =>
      have fenced : Fenced (c :: after) [] blanks := ⟨tail.symm,blank⟩
      have shorter := trim_suffix_fenced_length fenced
      have some_fence : 0 < fence.length := by decide
      simp only [length_nil] at lengths
      omega
    | cons =>
      have bound := @trim_suffix_length (c :: after)
      rw [length_cons] at lengths
      omega
  · have fenced : Fenced (c :: after) more blanks := ⟨by rw [tail,append_assoc],blank⟩
    have bound := @trim_length _ is_json_fence_whitespace more
    have longer := @rdropWhile_length_append _ is_json_fence_whitespace front more
    have some_fence : 0 < fence.length := by decide
    rw [trim_suffix fenced,inners]
    omega

theorem HeldBack.other_iff (line : '\n' ∈ rest) (missing : fence_prefix_len (fence ++ rest) = none)
    (held : HeldBack (fence ++ rest) told buffer) :
    trim is_json_fence_whitespace (told ++ strip_markdown_code_fence_suffix buffer) = strip_json_fences (fence ++ rest) ↔
      Ticks (fence ++ rest) := by
  obtain ⟨front,c,after,rest_split,solid,stripped⟩ := other_line line missing
  have filled : ¬ Blanks rest := fun blank => by
    have trimmed := blank c (by simp [rest_split])
    rw [solid] at trimmed
    cases trimmed
  by_cases near : ∃ body blanks, Fenced (fence ++ rest) body blanks ∧ fence.length + blanks.length ≤ SUFFIX_BUFFER_CHARS
  · obtain ⟨body,blanks,fenced,near⟩ := near
    rw [held.fenced fenced near]
    rcases closing_place fenced filled with ⟨_,rfl,closed⟩ | ⟨count,few,rfl⟩
    · refine iff_of_false (fun same => ?_) ?_
      · have shorter := other_shorter solid rest_split closed fenced.blank
        rw [strip_json_fences,stripped,trim_solid fence_solid] at same
        rw [← same,length_append] at shorter
        exact lt_irrefl _ shorter
      · rintro ⟨count,others,few,same,blank,_⟩
        obtain ⟨k,rfl⟩ : ∃ k, count = k + 3 := ⟨count - 3,by omega⟩
        have ticks : Fenced (fence ++ rest) (replicate k '`') others := same ▸ fenced_ticks blank
        have bodies := congrArg List.length ((fenced.rdropWhile fence_solid).symm.trans (ticks.rdropWhile fence_solid))
        simp only [length_append,length_replicate,fence,length_cons] at bodies
        omega
    · have whole : fence ++ rest = replicate (count + 3) '`' ++ blanks := by
        rw [fenced.split,replicate_add]
        rfl
      rw [whole,strip_ticks few fenced.blank]
      exact iff_of_true rfl ⟨count + 3,blanks,by omega,rfl,fenced.blank,near⟩
  · have far : ∀ body blanks, Fenced (fence ++ rest) body blanks → SUFFIX_BUFFER_CHARS < fence.length + blanks.length := by
      intro body blanks fenced
      by_contra close
      exact near ⟨body,blanks,fenced,Nat.not_lt.mp close⟩
    refine iff_of_false (fun same => ?_) ?_
    · rw [held.unfenced far,trim_solid fence_solid,strip_json_fences,stripped] at same
      have lengths := congrArg List.length same
      have bound := @trim_suffix_length (c :: after)
      have longer := @rdropWhile_length_append _ is_json_fence_whitespace front (c :: after)
      rw [← rest_split] at longer
      simp only [length_append,fence,length_cons] at lengths
      omega
    · rintro ⟨count,blanks,_,same,blank,close⟩
      obtain ⟨k,rfl⟩ : ∃ k, count = k + 3 := ⟨count - 3,by omega⟩
      have fenced : Fenced (fence ++ rest) (replicate k '`') blanks := same ▸ fenced_ticks blank
      exact near ⟨_,blanks,fenced,close⟩

end

end Ferrin.Middleware.ExtractJson
