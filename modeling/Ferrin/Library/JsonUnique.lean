import Ferrin.Library.JsonText

/-!
A JSON text denotes one value (`Text.unique`). Where a value begins, its first
character tells what it is, and it ends where something stops it.
-/
namespace Ferrin.JsonText
open List
open List (cons)

/-- What can follow a value: nothing, a space or a delimiter. -/
def Stop (rest : List Char) : Prop := ∀ c ∈ rest.head?, Blank c ∨ c = ',' ∨ c = ']' ∨ c = '\x7d'

def mark : Value → Char
  | .null => 'n'
  | .bool true => 't'
  | .bool false => 'f'
  | .number _ => '0'
  | .string _ => '"'
  | .array _ => '['
  | .object _ => '\x7b'

/-- The kind that the first character of a value tells. -/
def markOf (c : Char) : Char := if c = '-' ∨ c.isDigit then '0' else c

section
variable {text text' rest rest' raw raw' key key' digits digits' : List Char} {c : Char} {v w : Value} {m n : Nat}

/-! ### Spaces and strings -/

theorem spaces_unique {x y : Char} : ∀ {spaces spaces' : List Char}, Spaces spaces → Spaces spaces' →
    ¬ Blank x → ¬ Blank y → spaces ++ x :: rest = spaces' ++ y :: rest' → spaces = spaces' ∧ x = y ∧ rest = rest'
  | [],[],_,_,_,_,same => ⟨rfl,List.cons.inj same⟩
  | [],b :: bs,_,blank,solid,_,same => absurd ((List.cons.inj same).1 ▸ blank b List.mem_cons_self) solid
  | a :: as,[],blank,_,_,solid,same => absurd ((List.cons.inj same).1 ▸ blank a List.mem_cons_self) solid
  | a :: as,b :: bs,blank,blank',solid,solid',same => by
    obtain ⟨rfl,later⟩ := List.cons.inj same
    obtain ⟨rfl,others⟩ := spaces_unique (fun c mem => blank c (mem_cons_of_mem _ mem))
      (fun c mem => blank' c (mem_cons_of_mem _ mem)) solid solid' later
    exact ⟨rfl,others⟩

theorem hexUnit_unique (first : HexUnit digits m) (second : HexUnit digits' n) (same : digits ++ rest = digits' ++ rest') :
    digits = digits' ∧ m = n ∧ rest = rest' := by
  obtain ⟨a,b,c,d,w,x,y,z,rfl,hw,hx,hy,hz,rfl⟩ := first.spelled
  obtain ⟨a',b',c',d',w',x',y',z',rfl,hw',hx',hy',hz',rfl⟩ := second.spelled
  simp only [cons_append,nil_append,List.cons.injEq] at same
  obtain ⟨rfl,rfl,rfl,rfl,rfl⟩ := same
  rw [hw] at hw'
  rw [hx] at hx'
  rw [hy] at hy'
  rw [hz] at hz'
  cases hw'
  cases hx'
  cases hy'
  cases hz'
  exact ⟨rfl,rfl,rfl⟩

theorem shortEscape_u : shortEscape 'u' = none := by decide

theorem hexUnit_unique_append {raw₁ raw₂ : List Char} (first : HexUnit digits m) (second : HexUnit digits' n)
    (same : digits ++ raw₁ ++ rest = digits' ++ raw₂ ++ rest') : digits = digits' ∧ m = n ∧ raw₁ ++ rest = raw₂ ++ rest' := by
  rw [append_assoc,append_assoc] at same
  exact hexUnit_unique first second same

theorem Chars.unique (first : Chars raw key) : ∀ {raw' key' rest rest' : List Char}, Chars raw' key' →
    raw ++ '"' :: rest = raw' ++ '"' :: rest' → raw = raw' ∧ key = key' ∧ rest = rest' := by
  induction first with
  | nil =>
    intro raw' key' rest rest' second same
    cases second with
    | nil => exact ⟨rfl,rfl,(List.cons.inj same).2⟩
    | plain isPlain _ => exact absurd (List.cons.inj same).1.symm isPlain.1
    | short _ _ | unit _ _ _ | pair _ _ _ _ _ => cases (List.cons.inj same).1
  | @plain c raw key isPlain _ ih =>
    intro raw' key' rest rest' second same
    cases second with
    | nil => exact absurd (List.cons.inj same).1 isPlain.1
    | plain _ others =>
      simp only [cons_append,List.cons.injEq] at same
      obtain ⟨rfl,tail⟩ := same
      obtain ⟨rfl,rfl,rfl⟩ := ih others tail
      exact ⟨rfl,rfl,rfl⟩
    | short _ _ | unit _ _ _ | pair _ _ _ _ _ => exact absurd (List.cons.inj same).1 isPlain.2.1
  | @short e c raw key known _ ih =>
    intro raw' key' rest rest' second same
    cases second with
    | nil => cases (List.cons.inj same).1
    | plain isPlain _ => exact absurd (List.cons.inj same).1.symm isPlain.2.1
    | short known' others =>
      simp only [cons_append,List.cons.injEq,true_and] at same
      obtain ⟨rfl,tail⟩ := same
      obtain rfl := Option.some.inj (known.symm.trans known')
      obtain ⟨rfl,rfl,rfl⟩ := ih others tail
      exact ⟨rfl,rfl,rfl⟩
    | unit _ _ _ | pair _ _ _ _ _ =>
      simp only [cons_append,List.cons.injEq,true_and] at same
      obtain ⟨rfl,_⟩ := same
      rw [shortEscape_u] at known
      cases known
  | @unit digits n raw key hex single _ ih =>
    intro raw' key' rest rest' second same
    cases second with
    | nil => cases (List.cons.inj same).1
    | plain isPlain _ => exact absurd (List.cons.inj same).1.symm isPlain.2.1
    | short known _ =>
      simp only [cons_append,List.cons.injEq,true_and] at same
      obtain ⟨rfl,_⟩ := same
      rw [shortEscape_u] at known
      cases known
    | unit hex' _ others =>
      simp only [cons_append,List.cons.injEq,true_and] at same
      obtain ⟨rfl,rfl,tail⟩ := hexUnit_unique_append hex hex' same
      obtain ⟨rfl,rfl,rfl⟩ := ih others tail
      exact ⟨rfl,rfl,rfl⟩
    | pair first isHigh _ _ _ =>
      simp only [cons_append,List.cons.injEq,true_and] at same
      obtain ⟨_,rfl,_⟩ := hexUnit_unique_append hex first same
      exact absurd isHigh single.1
  | @pair high m low n raw key hex isHigh hex₂ isLow _ ih =>
    intro raw' key' rest rest' second same
    cases second with
    | nil => cases (List.cons.inj same).1
    | plain isPlain _ => exact absurd (List.cons.inj same).1.symm isPlain.2.1
    | short known _ =>
      simp only [cons_append,List.cons.injEq,true_and] at same
      obtain ⟨rfl,_⟩ := same
      rw [shortEscape_u] at known
      cases known
    | unit hex' single _ =>
      simp only [cons_append,List.cons.injEq,true_and] at same
      obtain ⟨_,rfl,_⟩ := hexUnit_unique_append hex hex' same
      exact absurd isHigh single.1
    | pair hex' _ hex₂' _ others =>
      simp only [cons_append,List.cons.injEq,true_and] at same
      obtain ⟨rfl,rfl,tail⟩ := hexUnit_unique_append hex hex' same
      simp only [cons_append,List.cons.injEq,true_and] at tail
      obtain ⟨rfl,rfl,tail⟩ := hexUnit_unique_append hex₂ hex₂' tail
      obtain ⟨rfl,rfl,rfl⟩ := ih others tail
      exact ⟨rfl,rfl,rfl⟩

def NumberChar (c : Char) : Prop := c.isDigit = true ∨ c = '-' ∨ c = '+' ∨ c = '.' ∨ c = 'e' ∨ c = 'E'

instance (c : Char) : Decidable (NumberChar c) :=
  inferInstanceAs (Decidable (c.isDigit = true ∨ c = '-' ∨ c = '+' ∨ c = '.' ∨ c = 'e' ∨ c = 'E'))

theorem Number.chars {token : List Char} (number : Number token) : ∀ c ∈ token, NumberChar c := by
  obtain ⟨sign,whole,fraction,exponent,rfl,signed,⟨⟨_,digits⟩,_⟩,fractional,exponential⟩ := number
  intro c mem
  simp only [mem_append] at mem
  rcases mem with mem | mem | mem | mem
  · rcases signed with rfl | rfl
    · cases mem
    · exact .inr (.inl (List.mem_singleton.mp mem))
  · exact .inl (digits c mem)
  · rcases fractional with rfl | ⟨digits,rfl,_,each⟩
    · cases mem
    · rcases List.mem_cons.mp mem with rfl | mem
      · exact .inr (.inr (.inr (.inl rfl)))
      · exact .inl (each c mem)
  · rcases exponential with rfl | ⟨e,sign,digits,rfl,letter,signed,_,each⟩
    · cases mem
    · rcases List.mem_cons.mp mem with rfl | mem
      · exact .inr (.inr (.inr (.inr letter)))
      · rcases List.mem_append.mp mem with mem | mem
        · rcases signed with rfl | rfl | rfl
          · cases mem
          · exact .inr (.inr (.inl (List.mem_singleton.mp mem)))
          · exact .inr (.inl (List.mem_singleton.mp mem))
        · exact .inl (each c mem)

theorem Stop.not_number (stop : Stop (c :: rest)) : ¬ NumberChar c := by
  rcases stop c rfl with (rfl | rfl | rfl | rfl) | rfl | rfl | rfl <;> decide

theorem Number.head {token : List Char} (number : Number token) : ∃ c tail, token = c :: tail ∧ (c = '-' ∨ c.isDigit = true) := by
  obtain ⟨sign,whole,fraction,exponent,rfl,signed,⟨⟨some_,digits⟩,_⟩,_,_⟩ := number
  rcases signed with rfl | rfl
  · cases whole with
    | nil => exact absurd rfl some_
    | cons c tail => exact ⟨c,_,rfl,.inr (digits c mem_cons_self)⟩
  · exact ⟨'-',_,rfl,.inl rfl⟩

theorem token_unique {P : Char → Prop} : ∀ {token token' rest rest' : List Char}, (∀ c ∈ token, P c) → (∀ c ∈ token', P c) →
    (∀ c ∈ rest.head?, ¬ P c) → (∀ c ∈ rest'.head?, ¬ P c) → token ++ rest = token' ++ rest' → token = token' ∧ rest = rest'
  | [],[],_,_,_,_,_,_,same => ⟨rfl,same⟩
  | [],b :: bs,rest,rest',_,each,stop,_,same => absurd (each b List.mem_cons_self) (stop b (by rw [List.nil_append] at same; rw [same]; rfl))
  | a :: as,[],rest,rest',each,_,_,stop,same => absurd (each a List.mem_cons_self) (stop a (by rw [List.nil_append] at same; rw [← same]; rfl))
  | a :: as,b :: bs,rest,rest',each,each',stop,stop',same => by
    obtain ⟨rfl,tail⟩ := cons.inj same
    obtain ⟨rfl,rfl⟩ := token_unique (fun c mem => each c (mem_cons_of_mem _ mem))
      (fun c mem => each' c (mem_cons_of_mem _ mem)) stop stop' tail
    exact ⟨rfl,rfl⟩

theorem Number.unique {token token' : List Char} (first : Number token) (second : Number token') (stop : Stop rest)
    (stop' : Stop rest') (same : token ++ rest = token' ++ rest') : token = token' ∧ rest = rest' := by
  have stopped {rest : List Char} (stop : Stop rest) : ∀ c ∈ rest.head?, ¬ NumberChar c := by
    intro c head
    cases rest with
    | nil => cases head
    | cons d tail =>
      obtain rfl := Option.some.inj head
      exact stop.not_number
  exact token_unique first.chars second.chars (stopped stop) (stopped stop') same

theorem Compact.leads (compact : Compact text v) : ∃ c tail, text = c :: tail ∧ markOf c = mark v := by
  cases compact with
  | number number =>
    obtain ⟨c,tail,rfl,leads⟩ := number.head
    exact ⟨c,tail,rfl,if_pos leads⟩
  | _ => exact ⟨_,_,rfl,rfl⟩

theorem solid_of_leads (leads : markOf c = mark v) : ¬ (Blank c ∨ c = ',' ∨ c = ']' ∨ c = '\x7d') := by
  have other : ∀ d : Char, markOf d ∉ ['n','t','f','0','"','[','\x7b'] → d ≠ c := by
    rintro d outside rfl
    rw [leads] at outside
    cases v with
    | bool b => cases b <;> exact outside (by simp [mark])
    | _ => exact outside (by simp [mark])
  rintro ((rfl | rfl | rfl | rfl) | rfl | rfl | rfl) <;> exact other _ (by decide) rfl

theorem lead_unique {spaces spaces' : List Char} (blank : Spaces spaces) (blank' : Spaces spaces') (first : Compact text v)
    (second : Compact raw w) (same : spaces ++ (text ++ rest) = spaces' ++ (raw ++ rest')) :
    spaces = spaces' ∧ mark v = mark w ∧ text ++ rest = raw ++ rest' := by
  obtain ⟨c,_,rfl,leads⟩ := first.leads
  obtain ⟨d,_,rfl,leads'⟩ := second.leads
  obtain ⟨rfl,rfl,later⟩ := spaces_unique blank blank' (fun blank => solid_of_leads leads (.inl blank))
    (fun blank => solid_of_leads leads' (.inl blank)) same
  exact ⟨rfl,leads.symm.trans leads',congrArg (cons c) later⟩

theorem stop_tail {after : List Char} {c : Char} (tail : Spaces after) (ends : c = ',' ∨ c = ']' ∨ c = '\x7d') :
    Stop (after ++ c :: rest) := by
  intro d head
  cases after with
  | nil =>
    obtain rfl := Option.some.inj head
    exact .inr ends
  | cons e =>
    obtain rfl := Option.some.inj head
    exact .inl (tail e mem_cons_self)

theorem solid_quote : ¬ Blank '"' := by rintro (h | h | h | h) <;> cases h

theorem solid_colon : ¬ Blank ':' := by rintro (h | h | h | h) <;> cases h

theorem solid_end {c : Char} (ends : c = ',' ∨ c = ']' ∨ c = '\x7d') : ¬ Blank c := by
  rcases ends with rfl | rfl | rfl <;> rintro (h | h | h | h) <;> cases h

theorem Items.not_empty {items : List Value} (listed : Items text items) {spaces : List Char} (blank : Spaces spaces) :
    spaces ++ ']' :: rest ≠ text ++ rest' := by
  have begun {before inner more : List Char} {v : Value} (lead : Spaces before) (value : Compact inner v) :
      spaces ++ ']' :: rest ≠ before ++ (inner ++ more) := by
    intro same
    obtain ⟨c,tail,rfl,leads⟩ := value.leads
    obtain ⟨_,rfl,_⟩ := spaces_unique blank lead (solid_end (.inr (.inl rfl))) (fun blank => solid_of_leads leads (.inl blank)) same
    exact solid_of_leads leads (.inr (.inr (.inl rfl)))
  cases listed with
  | last lead value _ => simpa only [append_assoc] using begun lead value
  | more lead value _ _ => simpa only [append_assoc] using begun lead value

theorem Members.not_empty {members : List (List Char × Value)} (listed : Members text members) {spaces : List Char}
    (blank : Spaces spaces) : spaces ++ '\x7d' :: rest ≠ text ++ rest' := by
  have begun {before more : List Char} (lead : Spaces before) : spaces ++ '\x7d' :: rest ≠ before ++ '"' :: more := by
    intro same
    obtain ⟨_,quote,_⟩ := spaces_unique blank lead (solid_end (.inr (.inr rfl))) solid_quote same
    cases quote
  cases listed with
  | last lead => simpa only [append_assoc,cons_append] using begun lead
  | more lead => simpa only [append_assoc,cons_append] using begun lead

theorem slot_unique {before before' after after' : List Char} {d : Char} (value : Compact text v)
    (unique : ∀ {raw rest rest' : List Char} {w : Value}, Compact raw w → Stop rest → Stop rest' → mark v = mark w →
      text ++ rest = raw ++ rest' → text = raw ∧ v = w ∧ rest = rest')
    (lead : Spaces before) (tail : Spaces after) (ends : c = ',' ∨ c = ']' ∨ c = '\x7d') (lead' : Spaces before')
    (value' : Compact raw w) (tail' : Spaces after') (ends' : d = ',' ∨ d = ']' ∨ d = '\x7d')
    (same : before ++ (text ++ (after ++ c :: rest)) = before' ++ (raw ++ (after' ++ d :: rest'))) :
    before = before' ∧ text = raw ∧ v = w ∧ after = after' ∧ c = d ∧ rest = rest' := by
  obtain ⟨rfl,kind,same⟩ := lead_unique lead lead' value value' same
  obtain ⟨rfl,rfl,same⟩ := unique value' (stop_tail tail ends) (stop_tail tail' ends') kind same
  obtain ⟨rfl,rfl,rfl⟩ := spaces_unique tail tail' (solid_end ends) (solid_end ends') same
  exact ⟨rfl,rfl,rfl,rfl,rfl,rfl⟩

theorem key_unique {before before' gap gap' : List Char} (lead : Spaces before) (chars : Chars raw key) (gapped : Spaces gap)
    (lead' : Spaces before') (chars' : Chars raw' key') (gapped' : Spaces gap')
    (same : before ++ '"' :: (raw ++ '"' :: (gap ++ ':' :: rest)) = before' ++ '"' :: (raw' ++ '"' :: (gap' ++ ':' :: rest'))) :
    before = before' ∧ raw = raw' ∧ key = key' ∧ gap = gap' ∧ rest = rest' := by
  obtain ⟨rfl,_,same⟩ := spaces_unique lead lead' solid_quote solid_quote same
  obtain ⟨rfl,rfl,same⟩ := chars.unique chars' same
  obtain ⟨rfl,_,rfl⟩ := spaces_unique gapped gapped' solid_colon solid_colon same
  exact ⟨rfl,rfl,rfl,rfl,rfl⟩

mutual

theorem Compact.unique : ∀ {text raw rest rest' : List Char} {v w : Value}, Compact text v → Compact raw w → Stop rest →
    Stop rest' → mark v = mark w → text ++ rest = raw ++ rest' → text = raw ∧ v = w ∧ rest = rest'
  | _,_,_,_,_,_,.null,second,_,_,kind,same => by
    cases second with
    | null => exact ⟨rfl,rfl,List.append_cancel_left same⟩
    | _ => exact absurd kind (by simp [mark])
  | _,_,_,_,_,_,.true,second,_,_,kind,same => by
    cases second with
    | true => exact ⟨rfl,rfl,List.append_cancel_left same⟩
    | _ => exact absurd kind (by simp [mark])
  | _,_,_,_,_,_,.false,second,_,_,kind,same => by
    cases second with
    | false => exact ⟨rfl,rfl,List.append_cancel_left same⟩
    | _ => exact absurd kind (by simp [mark])
  | _,_,_,_,_,_,.number number,second,stop,stop',kind,same => by
    cases second with
    | number number' =>
      obtain ⟨rfl,rfl⟩ := number.unique number' stop stop' same
      exact ⟨rfl,rfl,rfl⟩
    | _ => exact absurd kind (by simp [mark])
  | _,_,_,_,_,_,.string chars,second,_,_,kind,same => by
    cases second with
    | string chars' =>
      simp only [cons_append,append_assoc,nil_append,cons.injEq,true_and] at same
      obtain ⟨rfl,rfl,rfl⟩ := chars.unique chars' same
      exact ⟨rfl,rfl,rfl⟩
    | _ => exact absurd kind (by simp [mark])
  | _,_,_,_,_,_,.emptyArray blank,second,_,_,kind,same => by
    cases second with
    | emptyArray blank' =>
      simp only [cons_append,append_assoc,nil_append,cons.injEq,true_and] at same
      obtain ⟨rfl,_,rfl⟩ := spaces_unique blank blank' (solid_end (.inr (.inl rfl))) (solid_end (.inr (.inl rfl))) same
      exact ⟨rfl,rfl,rfl⟩
    | array listed =>
      simp only [cons_append,append_assoc,nil_append,cons.injEq,true_and] at same
      exact absurd same (listed.not_empty blank)
    | _ => exact absurd kind (by simp [mark])
  | _,_,_,_,_,_,.array listed,second,_,_,kind,same => by
    cases second with
    | emptyArray blank =>
      simp only [cons_append,append_assoc,nil_append,cons.injEq,true_and] at same
      exact absurd same.symm (listed.not_empty blank)
    | array listed' =>
      simp only [cons_append,append_assoc,nil_append,cons.injEq,true_and] at same
      obtain ⟨rfl,rfl,rfl⟩ := Items.unique listed listed' same
      exact ⟨rfl,rfl,rfl⟩
    | _ => exact absurd kind (by simp [mark])
  | _,_,_,_,_,_,.emptyObject blank,second,_,_,kind,same => by
    cases second with
    | emptyObject blank' =>
      simp only [cons_append,append_assoc,nil_append,cons.injEq,true_and] at same
      obtain ⟨rfl,_,rfl⟩ := spaces_unique blank blank' (solid_end (.inr (.inr rfl))) (solid_end (.inr (.inr rfl))) same
      exact ⟨rfl,rfl,rfl⟩
    | object listed =>
      simp only [cons_append,append_assoc,nil_append,cons.injEq,true_and] at same
      exact absurd same (listed.not_empty blank)
    | _ => exact absurd kind (by simp [mark])
  | _,_,_,_,_,_,.object listed,second,_,_,kind,same => by
    cases second with
    | emptyObject blank =>
      simp only [cons_append,append_assoc,nil_append,cons.injEq,true_and] at same
      exact absurd same.symm (listed.not_empty blank)
    | object listed' =>
      simp only [cons_append,append_assoc,nil_append,cons.injEq,true_and] at same
      obtain ⟨rfl,rfl,rfl⟩ := Members.unique listed listed' same
      exact ⟨rfl,rfl,rfl⟩
    | _ => exact absurd kind (by simp [mark])

theorem Items.unique : ∀ {text raw rest rest' : List Char} {items items' : List Value}, Items text items → Items raw items' →
    text ++ ']' :: rest = raw ++ ']' :: rest' → text = raw ∧ items = items' ∧ rest = rest'
  | _,_,_,_,_,_,.last lead value tail,second,same => by
    cases second with
    | last lead' value' tail' =>
      simp only [List.append_assoc] at same
      obtain ⟨rfl,rfl,rfl,rfl,_,rfl⟩ := slot_unique value (Compact.unique value) lead tail (.inr (.inl rfl)) lead' value' tail'
        (.inr (.inl rfl)) same
      exact ⟨rfl,rfl,rfl⟩
    | more lead' value' tail' _ =>
      simp only [append_assoc,cons_append] at same
      obtain ⟨_,_,_,_,ends,_⟩ := slot_unique value (Compact.unique value) lead tail (.inr (.inl rfl)) lead' value' tail'
        (.inl rfl) same
      cases ends
  | _,_,_,_,_,_,.more lead value tail others,second,same => by
    cases second with
    | last lead' value' tail' =>
      simp only [append_assoc,cons_append] at same
      obtain ⟨_,_,_,_,ends,_⟩ := slot_unique value (Compact.unique value) lead tail (.inl rfl) lead' value' tail'
        (.inr (.inl rfl)) same
      cases ends
    | more lead' value' tail' others' =>
      simp only [append_assoc,cons_append] at same
      obtain ⟨rfl,rfl,rfl,rfl,_,same⟩ := slot_unique value (Compact.unique value) lead tail (.inl rfl) lead' value' tail'
        (.inl rfl) same
      obtain ⟨rfl,rfl,rfl⟩ := Items.unique others others' same
      exact ⟨rfl,rfl,rfl⟩

theorem Members.unique : ∀ {text raw rest rest' : List Char} {members members' : List (List Char × Value)},
    Members text members → Members raw members' →
    text ++ '\x7d' :: rest = raw ++ '\x7d' :: rest' → text = raw ∧ members = members' ∧ rest = rest'
  | _,_,_,_,_,_,.last lead chars gapped spaced value tail,second,same => by
    cases second with
    | last lead' chars' gapped' spaced' value' tail' =>
      simp only [List.append_assoc,List.cons_append] at same
      obtain ⟨rfl,rfl,rfl,rfl,later⟩ := key_unique lead chars gapped lead' chars' gapped' same
      obtain ⟨rfl,rfl,rfl,rfl,_,rfl⟩ := slot_unique value (Compact.unique value) spaced tail (.inr (.inr rfl)) spaced' value'
        tail' (.inr (.inr rfl)) later
      exact ⟨rfl,rfl,rfl⟩
    | more lead' chars' gapped' spaced' value' tail' _ =>
      simp only [append_assoc,cons_append] at same
      obtain ⟨rfl,rfl,rfl,rfl,later⟩ := key_unique lead chars gapped lead' chars' gapped' same
      obtain ⟨_,_,_,_,ends,_⟩ := slot_unique value (Compact.unique value) spaced tail (.inr (.inr rfl)) spaced' value' tail'
        (.inl rfl) later
      cases ends
  | _,_,_,_,_,_,.more lead chars gapped spaced value tail others,second,same => by
    cases second with
    | last lead' chars' gapped' spaced' value' tail' =>
      simp only [append_assoc,cons_append] at same
      obtain ⟨rfl,rfl,rfl,rfl,later⟩ := key_unique lead chars gapped lead' chars' gapped' same
      obtain ⟨_,_,_,_,ends,_⟩ := slot_unique value (Compact.unique value) spaced tail (.inl rfl) spaced' value' tail'
        (.inr (.inr rfl)) later
      cases ends
    | more lead' chars' gapped' spaced' value' tail' others' =>
      simp only [append_assoc,cons_append] at same
      obtain ⟨rfl,rfl,rfl,rfl,later⟩ := key_unique lead chars gapped lead' chars' gapped' same
      obtain ⟨rfl,rfl,rfl,rfl,_,ends⟩ := slot_unique value (Compact.unique value) spaced tail (.inl rfl) spaced' value' tail'
        (.inl rfl) later
      obtain ⟨rfl,rfl,rfl⟩ := Members.unique others others' ends
      exact ⟨rfl,rfl,rfl⟩

end

theorem stop_spaces {after : List Char} (tail : Spaces after) : Stop after := by
  intro c head
  cases after with
  | nil => cases head
  | cons d =>
    obtain rfl := Option.some.inj head
    exact .inl (tail d mem_cons_self)

theorem Text.unique (first : Text text v) (second : Text text w) : v = w := by
  obtain ⟨_,_,_,rfl,lead,value,tail⟩ := first
  obtain ⟨_,_,_,same,lead',value',tail'⟩ := second
  obtain ⟨rfl,kind,same⟩ := lead_unique lead lead' value value' same
  exact (value.unique value' (stop_spaces tail) (stop_spaces tail') kind same).2.1

end

end Ferrin.JsonText
