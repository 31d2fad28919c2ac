import Ferrin.Google.JsonAccumulator
import Ferrin.Json.Object

/-!
Values at paths. An update at a path is an update of the value there, whatever
containers have to be made on the way (`set_at_append`, `set_at_below`), and the
path that is written for a list of segments is read back (`parse_path_text`).
-/
namespace Ferrin.Google
open List Nat JsonValue

/-! ### Arrays -/

variable (items : List JsonValue)

theorem pad_get (index : Nat) :
    (pad items index)[index]?.getD .null = items[index]?.getD .null := by
  unfold pad
  by_cases inside : index < items.length
  · rw [getElem?_append_left inside]
  · rw [getElem?_append_right (by omega),getElem?_replicate,getElem?_eq_none (by omega)]
    split_ifs <;> rfl

theorem length_pad (index : Nat) : index < (pad items index).length := by
  simp [pad]
  omega

theorem pad_of_lt {items : List JsonValue} {index : Nat} (inside : index < items.length) : pad items index = items := by
  have none : index + 1 - items.length = 0 := by omega
  simp [pad,none]

theorem pad_set (index : Nat) (v : JsonValue) :
    pad ((pad items index).set index v) index = (pad items index).set index v :=
  pad_of_lt (by rw [length_set]; exact length_pad items index)

def get_at (v : JsonValue) : List PathSegment → Option JsonValue
  | [] => some v
  | segment :: rest => (child v segment).bind (get_at · rest)

/-- The value with another one at the path. Containers of another kind on the way are replaced. -/
def set_at : JsonValue → List PathSegment → JsonValue → JsonValue
  | _,[],x => x
  | v,.Key key :: rest,x =>
    .object (JsonObject.insert (v.as_object.getD []) key (set_at ((child v (.Key key)).getD .null) rest x))
  | v,.Index index :: rest,x =>
    .array ((pad (v.as_array.getD []) index).set index (set_at ((child v (.Index index)).getD .null) rest x))

theorem child_set_at (v x : JsonValue) (segment : PathSegment) (rest : List PathSegment) :
    child (set_at v (segment :: rest) x) segment = some (set_at ((child v segment).getD .null) rest x) := by
  cases segment with
  | Key =>
    rw [set_at]
    exact (JsonObject.lookup_insert _ _ _ _).trans (if_pos rfl)
  | Index =>
    rw [set_at]
    exact getElem?_set_self (length_pad _ _)

theorem set_at_twice (v x y : JsonValue) (segment : PathSegment) (rest rest' : List PathSegment) :
    set_at (set_at v (segment :: rest) x) (segment :: rest') y =
      set_at v [segment] (set_at (set_at ((child v segment).getD .null) rest x) rest' y) := by
  have updated := child_set_at v x segment rest
  cases segment with
  | Key =>
    rw [set_at,updated,set_at,set_at]
    exact congrArg object (JsonObject.insert_insert _ _ _ _)
  | Index index =>
    rw [set_at,updated,set_at,set_at]
    refine congrArg array ?_
    show (pad ((pad _ index).set index _) index).set index _ = _
    rw [pad_set,set_set]
    rfl

theorem set_at_cons (v x : JsonValue) (segment : PathSegment) (rest : List PathSegment) :
    set_at v (segment :: rest) x = set_at v [segment] (set_at ((child v segment).getD .null) rest x) := by
  cases segment <;> rfl

theorem set_at_append (path rest : List PathSegment) (x y : JsonValue) : ∀ v,
    set_at (set_at v path x) (path ++ rest) y = set_at v path (set_at x rest y) := by
  induction path with
  | nil => exact fun v => rfl
  | cons _ _ ih =>
    intro v
    rw [cons_append,set_at_twice,ih,← set_at_cons]

theorem get_at_null (path : List PathSegment) : (get_at .null path).getD .null = .null := by
  cases path with
  | nil => rfl
  | cons segment => cases segment <;> rfl

theorem set_at_below (path rest : List PathSegment) (y : JsonValue) : ∀ v,
    set_at v (path ++ rest) y = set_at v path (set_at ((get_at v path).getD .null) rest y) := by
  induction path with
  | nil => exact fun v => rfl
  | cons segment path ih =>
    intro v
    rw [cons_append,set_at_cons,set_at_cons v _ segment path,ih]
    cases known : child v segment with
    | some => simp [get_at,known]
    | none => simp [get_at,known,get_at_null]

theorem get_at_append (path rest : List PathSegment) : ∀ v,
    get_at v (path ++ rest) = (get_at v path).bind (get_at · rest) := by
  induction path with
  | nil => exact fun v => rfl
  | cons _ _ ih =>
    intro v
    rw [cons_append,get_at,get_at,Option.bind_assoc]
    exact congrArg _ (funext ih)

theorem get_at_set_at (path : List PathSegment) (x : JsonValue) : ∀ v, get_at (set_at v path x) path = some x := by
  induction path with
  | nil => exact fun v => rfl
  | cons _ _ ih =>
    intro v
    rw [get_at,child_set_at]
    exact ih _

theorem set_at_container (segment : PathSegment) (rest : List PathSegment) (x : JsonValue) :
    set_at (container_for (some segment)) (segment :: rest) x = set_at .null (segment :: rest) x := by
  cases segment with
  | Key => rfl
  | Index =>
    simp only [set_at,container_for,child,as_array]
    rfl

theorem set_last_at (segment : PathSegment) (x v : JsonValue) : set_last segment x v = set_at v [segment] x := by
  cases segment with
  | Key => cases v <;> rfl
  | Index => cases v <;> rfl

theorem slot_at (slot x : JsonValue) (segment : PathSegment) (rest : List PathSegment) :
    set_at (if slot = .null then container_for (some segment) else slot) (segment :: rest) x =
      set_at slot (segment :: rest) x := by
  split_ifs with empty
  · rw [empty,set_at_container]
  · rfl

theorem child_slot_at (segment next : PathSegment) (rest : List PathSegment) (x v : JsonValue) :
    child_slot segment (some next) (fun slot => set_at slot (next :: rest) x) v = set_at v (segment :: next :: rest) x := by
  cases segment with
  | Key =>
    rw [child_slot,set_at,slot_at]
    cases v <;> rfl
  | Index =>
    rw [child_slot,set_at,slot_at,pad_get]
    cases v <;> rfl

theorem set_below_at (x : JsonValue) (path : List PathSegment) : path ≠ [] → ∀ v, set_below x path v = set_at v path x := by
  induction path with
  | nil => exact fun some_ => absurd rfl some_
  | cons segment rest ih =>
    intro _ v
    cases rest with
    | nil => exact set_last_at segment x v
    | cons next =>
      rw [set_below,← child_slot_at]
      exact congrArg (child_slot segment (some next) · v) (funext (ih (by simp)))

theorem set_nested_at (o : JsonObject) (key : String) (rest : List PathSegment) (x : JsonValue) :
    JsonValue.object (set_nested o (.Key key :: rest) x) = set_at (.object o) (.Key key :: rest) x := by
  cases rest with
  | nil => rfl
  | cons segment rest =>
    rw [set_nested,set_below_at x _ (by simp),set_at]
    · refine congrArg object (congrArg (JsonObject.insert o key) ?_)
      cases known : o.lookup key with
      | some => simp [child,as_object,known]
      | none => simpa [child,as_object,known] using set_at_container segment rest x
    · simp

theorem get_nested_at (o : JsonObject) (key : String) (rest : List PathSegment) :
    get_nested o (.Key key :: rest) = get_at (.object o) (.Key key :: rest) := by
  have follow : ∀ (rest : List PathSegment) (v : Option JsonValue),
      rest.foldl (fun current segment => current.bind (child · segment)) v = v.bind (get_at · rest) := by
    intro rest
    induction rest with
    | nil => intro v; cases v <;> rfl
    | cons _ _ ih =>
      intro v
      rw [foldl_cons,ih,Option.bind_assoc]
      rfl
  exact follow rest (o.lookup key)

def Plain : PathSegment → Prop
  | .Key key => key ≠ "" ∧ '.' ∉ key.toList ∧ '[' ∉ key.toList
  | .Index index => index < 2 ^ 64

def indexText (index : Nat) : List Char := '[' :: (Nat.toDigits 10 index ++ [']'])

def tailText : List PathSegment → List Char
  | [] => []
  | .Key key :: rest => '.' :: (key.toList ++ tailText rest)
  | .Index index :: rest => indexText index ++ tailText rest

def path_text : List PathSegment → List Char
  | .Key key :: rest => '$' :: '.' :: (key.toList ++ tailText rest)
  | path => '$' :: tailText path

theorem parse_usize_digits (n : Nat) (bound : n < 2 ^ 64) : parse_usize (Nat.toDigits 10 n) = some n := by
  have digits : ∀ c ∈ toDigits 10 n, c.isDigit = true := fun c mem =>
    isDigit_of_mem_toDigits (by omega) (by omega) mem
  have head : (toDigits 10 n).head? ≠ some '+' := by
    intro plus
    have digit := digits '+' (mem_of_mem_head? plus)
    cases digit
  have value : ofDigitChars 10 (toDigits 10 n) 0 = n := ofDigitChars_ten_toDigits
  have all : (toDigits 10 n).all Char.isDigit = true := List.all_eq_true.mpr digits
  simp only [parse_usize,if_neg head,value,all,toDigits_ne_nil,ne_eq,not_false_eq_true,and_self,if_true,if_pos bound]

theorem split_append {c : Char} {first : List Char} (whole : c ∉ first) (rest : List Char) :
    split c (first ++ c :: rest) = first :: split c rest := by
  induction first with
  | nil => simp [split]
  | cons _ _ ih =>
    simp only [mem_cons,not_or] at whole
    rw [cons_append,split,if_neg (Ne.symm whole.1),ih whole.2]

theorem split_whole {c : Char} {text : List Char} (whole : c ∉ text) : split c text = [text] := by
  induction text with
  | nil => rfl
  | cons _ _ ih =>
    simp only [mem_cons,not_or] at whole
    rw [split,if_neg (Ne.symm whole.1),ih whole.2]

variable (indices : List Nat)

theorem bracketed_indices (small : ∀ i ∈ indices, i < 2 ^ 64) : ∀ fuel, indices.length < fuel →
    bracketed fuel (indices.flatMap indexText) = indices.map .Index := by
  induction indices with
  | nil =>
    intro fuel enough
    obtain ⟨fuel,rfl⟩ := exists_eq_succ_of_ne_zero (Nat.ne_of_gt enough)
    rfl
  | cons index rest ih =>
    intro fuel enough
    obtain ⟨fuel,rfl⟩ := exists_eq_succ_of_ne_zero (Nat.ne_of_gt (zero_lt_of_lt enough))
    have digits : ∀ c ∈ toDigits 10 index, decide (c ≠ ']') = true := by
      intro c mem
      have digit := isDigit_of_mem_toDigits (by omega) (by omega) mem
      refine decide_eq_true fun same => ?_
      rw [same] at digit
      cases digit
    have inner : indexText index ++ rest.flatMap indexText =
        '[' :: (toDigits 10 index ++ ']' :: rest.flatMap indexText) := by simp [indexText]
    have parsed := parse_usize_digits index (small index mem_cons_self)
    rw [flatMap_cons,inner,bracketed,dropWhile_cons_of_neg (by simp)]
    dsimp only
    rw [dropWhile_append_of_pos digits,dropWhile_cons_of_neg (by simp),takeWhile_append_of_pos digits,
      takeWhile_cons_of_neg (by simp),append_nil,parsed]
    simp [ih (fun i mem => small i (mem_cons_of_mem _ mem)) fuel (by simpa using enough)]

theorem length_indices : indices.length ≤ (indices.flatMap indexText).length := by
  induction indices with
  | nil => exact Nat.le_refl _
  | cons =>
    rw [flatMap_cons,length_append,length_cons,indexText,length_cons]
    omega

theorem dot_indices : '.' ∉ indices.flatMap indexText := by
  intro mem
  obtain ⟨_,_,inside⟩ := List.mem_flatMap.mp mem
  rcases List.mem_cons.mp inside with open_ | later
  · cases open_
  · rcases List.mem_append.mp later with digit | close_
    · have isDigit := isDigit_of_mem_toDigits (b := 10) (by omega) (by omega) digit
      cases isDigit
    · cases List.mem_singleton.mp close_

theorem parse_part_text (key : String) (indices : List Nat) (plain : Plain (.Key key))
    (small : ∀ i ∈ indices, i < 2 ^ 64) :
    parse_part (key.toList ++ indices.flatMap indexText) = .Key key :: indices.map .Index := by
  obtain ⟨named,_,unbracketed⟩ := plain
  have outside : ∀ c ∈ key.toList, decide (c ≠ '[') = true := fun c mem =>
    decide_eq_true fun same => unbracketed (same ▸ mem)
  cases indices with
  | nil =>
    rw [flatMap_nil,append_nil,parse_part,if_neg unbracketed]
    simp
  | cons index rest =>
    have starts : (index :: rest).flatMap indexText = '[' :: ((indexText index).tail ++ rest.flatMap indexText) := by
      simp [indexText]
    have bracket : '[' ∈ key.toList ++ (index :: rest).flatMap indexText := by
      rw [starts]
      simp
    have text : key.toList ≠ [] := by simpa using named
    have length : (index :: rest).length < (key.toList ++ (index :: rest).flatMap indexText).length := by
      have some_ := length_pos_of_ne_nil text
      have indices := length_indices (index :: rest)
      rw [length_append]
      omega
    rw [parse_part,if_pos bracket,dropWhile_append_of_pos outside,takeWhile_append_of_pos outside,starts,
      takeWhile_cons_of_neg (by simp),dropWhile_cons_of_neg (by simp),append_nil,if_neg text,← starts,
      bracketed_indices _ small _ length]
    simp

theorem parse_tail (rest : List PathSegment) (plain : ∀ s ∈ rest, Plain s) : ∀ (key : String) (indices : List Nat),
    Plain (.Key key) → (∀ i ∈ indices, i < 2 ^ 64) →
    parse_path (key.toList ++ indices.flatMap indexText ++ tailText rest) = .Key key :: indices.map .Index ++ rest := by
  induction rest with
  | nil =>
    intro key indices named small
    rw [tailText,append_nil,parse_path,split_whole,flatMap_singleton,parse_part_text key indices named small]
    · simp
    · exact fun mem => (List.mem_append.mp mem).elim named.2.1 (dot_indices indices)
  | cons segment rest ih =>
    intro key indices named small
    have later : ∀ s ∈ rest, Plain s := fun s mem => plain s (mem_cons_of_mem _ mem)
    have first := plain segment mem_cons_self
    cases segment with
    | Index index =>
      have more := ih later key (indices ++ [index]) named (by
        intro i mem
        rcases List.mem_append.mp mem with earlier | last
        · exact small i earlier
        · cases List.mem_singleton.mp last
          exact first)
      rw [tailText]
      simpa using more
    | Key next =>
      have more := ih later next [] first (by simp)
      rw [tailText,parse_path,split_append,flatMap_cons,parse_part_text key indices named small]
      · rw [parse_path] at more
        simpa using more
      · exact fun mem => (List.mem_append.mp mem).elim named.2.1 (dot_indices indices)

theorem parse_path_text (key : String) (rest : List PathSegment) (plain : ∀ s ∈ PathSegment.Key key :: rest, Plain s) :
    parse_path ((path_text (.Key key :: rest)).drop 2) = .Key key :: rest := by
  have parsed := parse_tail rest (fun s mem => plain s (mem_cons_of_mem _ mem)) key []
    (plain _ mem_cons_self) (by simp)
  simpa [path_text] using parsed

end Ferrin.Google
