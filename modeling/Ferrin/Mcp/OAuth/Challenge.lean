import Ferrin.GenerateText.ParseToolCall
import Ferrin.Library.Quoted
import Ferrin.Library.Trim
import Ferrin.Mcp.OAuth.Provider

/-!
The parameters of a challenge, scanned from a header that may hold anything. What
was rendered in it is read back, after the scheme, which is passed over only where
it is spelled in one of two ways.
-/
namespace Ferrin.Mcp.OAuth
open List Nat
open GenerateText (is_whitespace)
open Trim

/-! ### The scanner -/

def is_separator (c : Char) : Bool := is_whitespace c || c = ','

def ends_name (c : Char) : Bool := c = '=' || is_whitespace c || c = ','

def to_ascii_lowercase (name : List Char) : List Char := name.map Char.toLower

/-- `rest` without a scheme that whitespace follows. -/
def strip_scheme (header : List Char) : List Char :=
  let rest := header.dropWhile is_whitespace
  match (rest.dropPrefix? "Bearer".toList).or (rest.dropPrefix? "bearer".toList) with
  | some after_scheme => if after_scheme.head?.any is_whitespace then after_scheme.dropWhile is_whitespace else rest
  | none => rest

def scan_value : List Char → List Char × List Char
  | '"' :: quoted => Quoted.readOpen '"' '\\' quoted
  | text => (text.takeWhile (!is_separator ·),text.dropWhile (!is_separator ·))

/-- One round of the loop: a parameter and the text after it. -/
def scan_param (text : List Char) : Option ((List Char × List Char) × List Char) :=
  let text := text.dropWhile is_separator
  let name := text.takeWhile (!ends_name ·)
  if name = [] then none
  else match (text.dropWhile (!ends_name ·)).dropWhile is_whitespace with
    | '=' :: rest =>
      let scanned := scan_value (rest.dropWhile is_whitespace)
      some ((to_ascii_lowercase name,scanned.1),scanned.2)
    | rest => some ((to_ascii_lowercase name,[]),rest)

/-- `none` is a loop that has not ended after so many rounds. -/
def scan_params : (fuel : Nat) → List Char → Option (List (List Char × List Char))
  | 0,_ => none
  | fuel + 1,text =>
    match scan_param text with
    | none => some []
    | some (param,rest) => (scan_params fuel rest).map (param :: ·)

def challenge_params (fuel : Nat) (header : List Char) : Option (List (List Char × List Char)) :=
  scan_params fuel (strip_scheme header)

theorem scan_value_length (text : List Char) : (scan_value text).2.length ≤ text.length := by
  unfold scan_value
  split
  · exact le_succ_of_le (Quoted.readOpen_length _)
  · exact length_dropWhile_le _ _

variable {text rest name word value written gap scheme header lead : List Char} {c : Char}
  {params : List (List Char × List Char)} {fuel : Nat}

theorem scan_param_length {param : List Char × List Char}
    (scanned : scan_param text = some (param,rest)) : rest.length < text.length := by
  have skipped := length_dropWhile_le is_separator text
  have split := congrArg List.length
    (takeWhile_append_dropWhile (p := (!ends_name ·)) (l := text.dropWhile is_separator))
  rw [length_append] at split
  have spaces := length_dropWhile_le is_whitespace ((text.dropWhile is_separator).dropWhile (!ends_name ·))
  unfold scan_param at scanned
  dsimp only at scanned
  split_ifs at scanned with no_name
  have named := List.length_pos_iff.mpr no_name
  split at scanned
  · next after_equals equals =>
    rw [equals,length_cons] at spaces
    have blanks := length_dropWhile_le is_whitespace after_equals
    have valued := scan_value_length (after_equals.dropWhile is_whitespace)
    cases scanned
    omega
  · cases scanned
    omega

theorem scan_params_ends : ∀ {fuel : Nat} {text : List Char}, text.length < fuel → ∃ params, scan_params fuel text = some params
  | 0,_,enough => absurd enough (Nat.not_lt_zero _)
  | fuel + 1,text,enough => by
    rw [scan_params]
    cases scanned : scan_param text with
    | none => exact ⟨[],rfl⟩
    | some found =>
      obtain ⟨param,rest⟩ := found
      have shorter := scan_param_length scanned
      obtain ⟨params,later⟩ := scan_params_ends (show rest.length < fuel by omega)
      exact ⟨param :: params,by simp [later]⟩

theorem scan_params_more : ∀ {fuel : Nat} {text : List Char} {params : List (List Char × List Char)} (more : Nat),
    scan_params fuel text = some params → scan_params (fuel + more) text = some params
  | 0,_,_,_,ended => by cases ended
  | fuel + 1,text,params,more,ended => by
    rw [scan_params] at ended
    rw [Nat.add_right_comm,scan_params]
    cases scanned : scan_param text with
    | none =>
      rw [scanned] at ended
      exact ended
    | some =>
      rw [scanned] at ended
      obtain ⟨_,tail,rfl⟩ := Option.map_eq_some_iff.mp ended
      simp [scan_params_more more tail]

inductive WrittenValue : List Char → List Char → Prop where
  | token {value : List Char} (word : Solid is_separator value) (unquoted : value.head? ≠ some '"') : WrittenValue value value
  | quoted {value written : List Char} (spells : Quoted.Spells '"' '\\' value written) :
      WrittenValue value ('"' :: (written ++ ['"']))

/-- Parameters after commas and whitespace, with whitespace around the equals sign. -/
inductive Renders : List (List Char × List Char) → List Char → Prop where
  | done {gap : List Char} (separators : Blank is_separator gap) : Renders [] gap
  | param {gap name before after value written rest : List Char} {params : List (List Char × List Char)}
      (separators : Blank is_separator gap) (named : Solid ends_name name)
      (blank_before : Blank is_whitespace before) (blank_after : Blank is_whitespace after)
      (valued : WrittenValue value written) (apart : ∀ c ∈ rest.head?, is_separator c)
      (later : Renders params rest) :
      Renders ((name,value) :: params) (gap ++ (name ++ (before ++ '=' :: (after ++ (written ++ rest)))))

def lowered (params : List (List Char × List Char)) : List (List Char × List Char) :=
  params.map fun param => (to_ascii_lowercase param.1,param.2)

theorem separator_of_whitespace (space : is_whitespace c = true) : is_separator c = true := by
  simp [is_separator,space]

theorem ends_name_of_whitespace (space : is_whitespace c = true) : ends_name c = true := by
  simp [ends_name,space]

theorem not_separator (inside : ends_name c = false) : is_separator c = false := by
  simp only [ends_name,Bool.or_eq_false_iff] at inside
  simp [is_separator,inside.1.2,inside.2]

theorem not_whitespace (inside : is_separator c = false) : is_whitespace c = false := by
  simp only [is_separator,Bool.or_eq_false_iff] at inside
  exact inside.1

theorem solid_name (named : Solid ends_name name) : Solid is_separator name :=
  ⟨named.1,fun c member => not_separator (named.2 c member)⟩

theorem solid_word (solid : Solid is_separator word) : Solid is_whitespace word :=
  ⟨solid.1,fun c member => not_whitespace (solid.2 c member)⟩

theorem scan_value_written (valued : WrittenValue value written)
    (apart : ∀ c ∈ rest.head?, is_separator c) : scan_value (written ++ rest) = (value,rest) := by
  cases valued with
  | token word unquoted =>
    have first : ∀ quoted, value ++ rest ≠ '"' :: quoted := by
      intro quoted same
      cases value with
      | nil => exact word.1 rfl
      | cons c more => exact unquoted (congrArg some (List.cons.inj same).1)
    rw [scan_value.eq_2 _ first,takeWhile_whole word.2 apart,dropWhile_whole word.2 apart]
  | quoted spells =>
    have closed := Quoted.read_spells (by decide) spells rest
    rw [cons_append,append_assoc]
    exact Quoted.readOpen_of_read closed

theorem WrittenValue.solid (valued : WrittenValue value written) (rest : List Char) :
    (written ++ rest).dropWhile is_whitespace = written ++ rest := by
  cases valued with
  | token word => exact dropWhile_solid (solid_word word)
  | quoted => exact dropWhile_cons_of_neg (by decide)

theorem scan_param_rendered {before after : List Char}
    (separators : Blank is_separator gap) (named : Solid ends_name name) (blank_before : Blank is_whitespace before)
    (blank_after : Blank is_whitespace after) (valued : WrittenValue value written)
    (apart : ∀ c ∈ rest.head?, is_separator c) :
    scan_param (gap ++ (name ++ (before ++ '=' :: (after ++ (written ++ rest))))) =
      some ((to_ascii_lowercase name,value),rest) := by
  have stops : ∀ c ∈ (before ++ '=' :: (after ++ (written ++ rest))).head?, ends_name c := by
    intro c first
    cases before with
    | nil => cases first; rfl
    | cons b more => cases first; exact ends_name_of_whitespace (blank_before c mem_cons_self)
  have equals : (before ++ '=' :: (after ++ (written ++ rest))).dropWhile is_whitespace =
      '=' :: (after ++ (written ++ rest)) := by
    rw [dropWhile_blank blank_before,dropWhile_cons_of_neg (by decide)]
  have scanned : scan_value ((after ++ (written ++ rest)).dropWhile is_whitespace) = (value,rest) := by
    rw [dropWhile_blank blank_after,valued.solid,scan_value_written valued apart]
  unfold scan_param
  dsimp only
  rw [dropWhile_blank separators,dropWhile_solid (solid_name named),takeWhile_whole named.2 stops,
    dropWhile_whole named.2 stops,if_neg named.1,equals]
  simp only [scanned]

theorem scan_param_done (separators : Blank is_separator gap) : scan_param gap = none := by
  unfold scan_param
  dsimp only
  rw [List.dropWhile_eq_nil_iff.mpr separators]
  rfl

theorem scan_params_rendered (renders : Renders params text) :
    ∀ {fuel : Nat}, text.length < fuel → scan_params fuel text = some (lowered params) := by
  induction renders with
  | done separators =>
    intro fuel enough
    obtain ⟨fuel,rfl⟩ := exists_eq_succ_of_ne_zero (by omega : fuel ≠ 0)
    rw [succ_eq_add_one,scan_params,scan_param_done separators]
    rfl
  | param separators named blank_before blank_after valued apart _ ih =>
    intro fuel enough
    obtain ⟨fuel,rfl⟩ := exists_eq_succ_of_ne_zero (by omega : fuel ≠ 0)
    have scanned := scan_param_rendered separators named blank_before blank_after valued apart
    have shorter := scan_param_length scanned
    rw [succ_eq_add_one,scan_params,scanned]
    dsimp only
    rw [ih (by omega)]
    rfl

/-- The scheme in one of the spellings that are passed over. -/
def Bearer (scheme : List Char) : Prop := scheme = "Bearer".toList ∨ scheme = "bearer".toList

instance (scheme : List Char) : Decidable (Bearer scheme) := inferInstanceAs (Decidable (_ ∨ _))

theorem Bearer.solid (bearer : Bearer scheme) : Solid ends_name scheme := by
  rcases bearer with rfl | rfl <;> exact .of_all (by decide) (by decide)

theorem strip_scheme_kept (other : ∀ scheme after, Bearer scheme → header.dropWhile is_whitespace = scheme ++ after →
      after.head?.any is_whitespace = false) : strip_scheme header = header.dropWhile is_whitespace := by
  unfold strip_scheme
  dsimp only
  split
  · next after found =>
    have followed : after.head?.any is_whitespace = false := by
      rcases Option.or_eq_some_iff.mp found with upper | ⟨_,lower⟩
      · obtain ⟨scheme,whole,same⟩ := List.dropPrefix?_eq_some_iff.mp upper
        exact other scheme after (.inl (eq_of_beq same)) whole
      · obtain ⟨scheme,whole,same⟩ := List.dropPrefix?_eq_some_iff.mp lower
        exact other scheme after (.inr (eq_of_beq same)) whole
    rw [if_neg (by simp [followed])]
  · rfl

theorem head_any_of_solid (solid : Solid is_whitespace word) : (word ++ rest).head?.any is_whitespace = false := by
  obtain ⟨filled,kept⟩ := solid
  cases word with
  | nil => exact absurd rfl filled
  | cons c more => exact kept c mem_cons_self

theorem strip_scheme_word (named : Solid ends_name word) (not_bearer : ¬ Bearer word)
    (spaces : Blank is_whitespace gap) (filled : gap ≠ []) :
    strip_scheme (word ++ (gap ++ rest)) = word ++ (gap ++ rest) := by
  have solid := solid_word (solid_name named)
  have start : (word ++ (gap ++ rest)).dropWhile is_whitespace = word ++ (gap ++ rest) := dropWhile_solid solid
  obtain ⟨space,gap,rfl⟩ := exists_cons_of_ne_nil filled
  rw [strip_scheme_kept,start]
  intro scheme after bearer whole
  rw [start] at whole
  rcases List.append_eq_append_iff.mp whole with ⟨more,shorter,same⟩ | ⟨more,longer,same⟩
  · cases more with
    | nil =>
      rw [append_nil] at shorter
      exact absurd (shorter ▸ bearer) not_bearer
    | cons c more =>
      have inside := bearer.solid.2 c (by simp [shorter])
      rw [cons_append,cons_append,List.cons.injEq] at same
      rw [← same.1,ends_name_of_whitespace (spaces space mem_cons_self)] at inside
      cases inside
  · cases more with
    | nil =>
      rw [append_nil] at longer
      exact absurd (longer ▸ bearer) not_bearer
    | cons c more =>
      rw [same]
      exact head_any_of_solid ⟨cons_ne_nil _ _,fun d mem => solid.2 d (by simp [longer,mem])⟩

theorem strip_scheme_bearer (bearer : Bearer scheme) (spaces : Blank is_whitespace gap)
    (filled : gap ≠ []) : strip_scheme (scheme ++ (gap ++ rest)) = rest.dropWhile is_whitespace := by
  have start : (scheme ++ (gap ++ rest)).dropWhile is_whitespace = scheme ++ (gap ++ rest) :=
    dropWhile_solid (solid_word (solid_name bearer.solid))
  have found : ((scheme ++ (gap ++ rest)).dropPrefix? "Bearer".toList).or
      ((scheme ++ (gap ++ rest)).dropPrefix? "bearer".toList) = some (gap ++ rest) := by
    rcases bearer with rfl | rfl
    · rw [dropPrefix?_append_of_beq _ BEq.rfl]
      rfl
    · rw [dropPrefix?_append_of_beq _ BEq.rfl,show ("bearer".toList ++ (gap ++ rest)).dropPrefix?
        "Bearer".toList = none from rfl]
      rfl
  obtain ⟨space,gap,rfl⟩ := exists_cons_of_ne_nil filled
  unfold strip_scheme
  dsimp only
  rw [start,found]
  dsimp only
  have followed : (space :: gap ++ rest).head?.any is_whitespace = true := spaces space mem_cons_self
  rw [if_pos followed,dropWhile_blank spaces]

theorem strip_scheme_bare (named : Solid ends_name word) : strip_scheme word = word := by
  have solid := solid_word (solid_name named)
  have start : word.dropWhile is_whitespace = word := by
    simpa using @dropWhile_solid _ _ [] word solid
  rw [strip_scheme_kept,start]
  intro scheme after _ whole
  rw [start] at whole
  cases after with
  | nil => rfl
  | cons c more => exact solid.2 c (by simp [whole])

theorem strip_scheme_lead (spaces : Blank is_whitespace lead) :
    strip_scheme (lead ++ header) = strip_scheme header := by
  unfold strip_scheme
  rw [dropWhile_blank spaces]

theorem scan_param_spaces (text : List Char) : scan_param (text.dropWhile is_whitespace) = scan_param text := by
  have split := takeWhile_append_dropWhile (p := is_whitespace) (l := text)
  have blank : Blank is_separator (text.takeWhile is_whitespace) :=
    fun _ mem => separator_of_whitespace (mem_takeWhile_imp mem)
  have same : text.dropWhile is_separator = (text.dropWhile is_whitespace).dropWhile is_separator := by
    conv_lhs => rw [← split]
    exact dropWhile_blank blank
  unfold scan_param
  rw [same]

theorem scan_params_spaces (fuel : Nat) (text : List Char) :
    scan_params fuel (text.dropWhile is_whitespace) = scan_params fuel text := by
  cases fuel with
  | zero => rfl
  | succ fuel => rw [scan_params,scan_params,scan_param_spaces]

theorem Renders.no_equals (renders : Renders params text)
    (rest : List Char) : text.dropWhile is_whitespace ≠ '=' :: rest := by
  intro equals
  cases renders with
  | done separators =>
    have within := (dropWhile_sublist _).subset (equals ▸ mem_cons_self)
    exact absurd (separators '=' within) (by decide)
  | @param gap name before after value written tail _ separators named =>
    rw [dropWhile_append] at equals
    split_ifs at equals with gone
    · rw [dropWhile_solid (solid_word (solid_name named))] at equals
      obtain ⟨c,more,rfl⟩ := exists_cons_of_ne_nil named.1
      have inside := named.2 c mem_cons_self
      rw [(List.cons.inj equals).1] at inside
      exact absurd inside (by decide)
    · cases left : gap.dropWhile is_whitespace with
      | nil => simp [left] at gone
      | cons c more =>
        rw [left] at equals
        have within := separators c ((dropWhile_sublist _).subset (left ▸ mem_cons_self))
        rw [(List.cons.inj equals).1] at within
        exact absurd within (by decide)

theorem scan_param_scheme
    (named : Solid ends_name scheme) (spaces : Blank is_whitespace gap) (filled : gap ≠ []) (renders : Renders params text) :
    scan_param (scheme ++ (gap ++ text)) = some ((to_ascii_lowercase scheme,[]),text.dropWhile is_whitespace) := by
  have stops : ∀ c ∈ (gap ++ text).head?, ends_name c := by
    intro c first
    obtain ⟨space,gap,rfl⟩ := exists_cons_of_ne_nil filled
    cases first
    exact ends_name_of_whitespace (spaces c mem_cons_self)
  unfold scan_param
  dsimp only
  rw [dropWhile_solid (solid_name named),takeWhile_whole named.2 stops,dropWhile_whole named.2 stops,if_neg named.1,
    dropWhile_blank spaces]
  split
  · next rest equals => exact absurd equals (renders.no_equals rest)
  · rfl

/-! ### Whole challenges -/

structure Challenge (lead scheme gap text : List Char) (params : List (List Char × List Char)) : Prop where
  blank_lead : Blank is_whitespace lead
  named : Solid ends_name scheme
  spaces : Blank is_whitespace gap
  filled : gap ≠ []
  renders : Renders params text

/-- What is read of a challenge: a scheme that is not passed over comes first, without a value. -/
def challenge_read (scheme : List Char) (params : List (List Char × List Char)) : List (List Char × List Char) :=
  if Bearer scheme then lowered params else (to_ascii_lowercase scheme,[]) :: lowered params

theorem challenge_params_some (challenge : Challenge lead scheme gap text params)
    (enough : (lead ++ (scheme ++ (gap ++ text))).length < fuel) :
    challenge_params fuel (lead ++ (scheme ++ (gap ++ text))) = some (challenge_read scheme params) := by
  obtain ⟨blank_lead,named,spaces,filled,renders⟩ := challenge
  have within := List.length_pos_iff.mpr named.1
  simp only [length_append] at enough
  rw [challenge_params,strip_scheme_lead blank_lead,challenge_read]
  split_ifs with bearer
  · rw [strip_scheme_bearer bearer spaces filled,scan_params_spaces,scan_params_rendered renders (by omega)]
  · obtain ⟨fuel,rfl⟩ := exists_eq_succ_of_ne_zero (by omega : fuel ≠ 0)
    rw [strip_scheme_word named bearer spaces filled,succ_eq_add_one,scan_params,
      scan_param_scheme named spaces filled renders]
    dsimp only
    rw [scan_params_spaces,scan_params_rendered renders (by omega)]
    rfl

theorem challenge_params_bare (blank_lead : Blank is_whitespace lead)
    (named : Solid ends_name scheme) (enough : (lead ++ scheme).length < fuel) :
    challenge_params fuel (lead ++ scheme) = some [(to_ascii_lowercase scheme,[])] := by
  have within := List.length_pos_iff.mpr named.1
  rw [length_append] at enough
  obtain ⟨fuel,rfl⟩ := exists_eq_succ_of_ne_zero (by omega : fuel ≠ 0)
  have nothing : ∀ c ∈ ([] : List Char).head?, ends_name c := fun c mem => by cases mem
  have scanned : scan_param scheme = some ((to_ascii_lowercase scheme,[]),[]) := by
    have start : scheme.dropWhile is_separator = scheme := by
      simpa using @dropWhile_solid _ _ [] scheme (solid_name named)
    have name := takeWhile_whole named.2 nothing
    have rest := dropWhile_whole named.2 nothing
    rw [append_nil] at name rest
    unfold scan_param
    dsimp only
    rw [start,name,rest,if_neg named.1]
    rfl
  rw [challenge_params,strip_scheme_lead blank_lead,strip_scheme_bare named,succ_eq_add_one,scan_params,scanned]
  dsimp only
  rw [scan_params_rendered (.done (fun _ mem => by cases mem)) (by rw [length_nil]; omega)]
  rfl

theorem challenge_params_ends (header : List Char) :
    ∃ params, ∀ fuel, header.length < fuel → challenge_params fuel header = some params := by
  have shorter : (strip_scheme header).length ≤ header.length := by
    have spaces := length_dropWhile_le is_whitespace header
    unfold strip_scheme
    dsimp only
    split
    · next after found =>
      have cut : after.length ≤ (header.dropWhile is_whitespace).length := by
        rcases Option.or_eq_some_iff.mp found with upper | ⟨_,lower⟩
        · obtain ⟨scheme,whole,_⟩ := List.dropPrefix?_eq_some_iff.mp upper
          rw [whole,length_append]
          omega
        · obtain ⟨scheme,whole,_⟩ := List.dropPrefix?_eq_some_iff.mp lower
          rw [whole,length_append]
          omega
      have trimmed := length_dropWhile_le is_whitespace after
      split_ifs <;> omega
    · exact spaces
  obtain ⟨params,ended⟩ := scan_params_ends (lt_succ_self (strip_scheme header).length)
  refine ⟨params,fun fuel enough => ?_⟩
  obtain ⟨more,rfl⟩ := Nat.exists_eq_add_of_lt (Nat.lt_of_le_of_lt shorter enough)
  rw [challenge_params,Nat.add_right_comm]
  exact scan_params_more more ended

/-- What a challenge renders is read back after its scheme, and the scanner ends on every header. -/
theorem challenge_params_read :
    (∀ header : List Char, ∃ params, ∀ fuel, header.length < fuel → challenge_params fuel header = some params) ∧
    (∀ (lead scheme gap text : List Char) (params : List (List Char × List Char)),
      Challenge lead scheme gap text params → ∀ fuel, (lead ++ (scheme ++ (gap ++ text))).length < fuel →
        challenge_params fuel (lead ++ (scheme ++ (gap ++ text))) =
          some (if scheme = "Bearer".toList ∨ scheme = "bearer".toList then lowered params
            else (to_ascii_lowercase scheme,[]) :: lowered params)) ∧
    ∀ lead scheme : List Char, Blank is_whitespace lead → Solid ends_name scheme → ∀ fuel,
      (lead ++ scheme).length < fuel → challenge_params fuel (lead ++ scheme) = some [(to_ascii_lowercase scheme,[])] :=
  ⟨challenge_params_ends,fun _ _ _ _ _ challenge _ enough => challenge_params_some challenge enough,
    fun _ _ blank_lead named _ enough => challenge_params_bare blank_lead named enough⟩

/-- `x=1, Scope="a, \"b"`. -/
theorem renders_scope : Renders [(['x'],['1']),(['S','c','o','p','e'],['a',',',' ','"','b'])]
    ['x','=','1',',',' ','S','c','o','p','e','=','"','a',',',' ','\\','"','b','"'] := by
  have spells : Quoted.Spells '"' '\\' ['a',',',' ','"','b'] ['a',',',' ','\\','"','b'] :=
    .plain (by decide) (by decide) (.plain (by decide) (by decide) (.plain (by decide) (by decide)
      (.escaped (.plain (by decide) (by decide) .nil))))
  have scope :=
    @Renders.param [',',' '] ['S','c','o','p','e'] [] [] _ _ [] [] (by decide) (.of_all (by decide) (by decide))
    (by decide) (by decide) (.quoted spells) (fun _ none_left => by cases none_left) (.done (by decide))
  exact @Renders.param [] ['x'] [] [] ['1'] ['1'] _ _ (by decide) (.of_all (by decide) (by decide)) (by decide) (by decide)
    (.token (.of_all (by decide) (by decide)) (by decide)) (fun _ comma => by cases comma; rfl) scope

theorem challenge_params_read_bearer :
    challenge_params 40 (['B','e','a','r','e','r',' '] ++
      ['x','=','1',',',' ','S','c','o','p','e','=','"','a',',',' ','\\','"','b','"']) =
      some [(['x'],['1']),(['s','c','o','p','e'],['a',',',' ','"','b'])] :=
  challenge_params_read.2.1 [] ['B','e','a','r','e','r'] [' '] _ _
    ⟨by decide,.of_all (by decide) (by decide),by decide,by decide,renders_scope⟩ 40 (by decide)

/-- Another scheme is read as one more parameter. -/
theorem scheme_read : Renders [(['S','c','o','p','e'],['a'])] ['S','c','o','p','e','=','a'] ∧
    challenge_params 40 (['D','P','o','P',' '] ++ ['S','c','o','p','e','=','a']) =
      some [(['d','p','o','p'],[]),(['s','c','o','p','e'],['a'])] := by
  constructor
  · exact @Renders.param [] ['S','c','o','p','e'] [] [] ['a'] ['a'] [] [] (by decide) (.of_all (by decide) (by decide))
      (by decide) (by decide) (.token (.of_all (by decide) (by decide)) (by decide)) (fun _ none_left => by cases none_left)
      (.done (by decide))
  · decide

section
variable {Url : Type} [UrlText Url]

end

end Ferrin.Mcp.OAuth
