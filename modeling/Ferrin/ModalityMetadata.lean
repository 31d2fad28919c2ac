import Ferrin.Json.Object
import Ferrin.Library.DecimalText
import Ferrin.Library.SortedMap
import Ferrin.LanguageModel
import Mathlib.Data.List.DropRight
import Mathlib.Data.String.Basic

/-!
Aggregation of the provider metadata of image calls: image lists concatenate,
and gateway costs, which are decimal texts, are added without loss.
-/
namespace Ferrin.ModalityMetadata
open DecimalText List JsonObject
open Option (bind_some ext isSome_iff_exists map_eq_some_iff some)

/-! ### Decimal texts -/

def decimal_parts (value : List Char) : Option (List Char × List Char) :=
  let integer := value.takeWhile (· ≠ '.')
  let fraction := (value.dropWhile (· ≠ '.')).tail
  if integer.isEmpty ∨ ¬ integer.all Char.isDigit ∨ ¬ fraction.all Char.isDigit ∨ ('.' ∈ value ∧ fraction.isEmpty) then none
  else some (integer,fraction)

def digits (precision : Nat) (integer fraction : List Char) : List Char :=
  integer ++ fraction ++ List.replicate (precision - fraction.length) '0'

def digit (value : List Char) (index : Nat) : Nat := (value.reverse[index]?).elim 0 digitValue

def digitChar (n : Nat) : Char := Char.ofNat ('0'.toNat + n)

def add_digits (left right : List Char) : Nat → List Char × Nat
  | 0 => ([],0)
  | index + 1 =>
    let (result,carry) := add_digits left right index
    let sum := digit left index + digit right index + carry
    (digitChar (sum % 10) :: result,sum / 10)

def push_carry : List Char × Nat → List Char
  | (result,carry) => if carry ≠ 0 then digitChar carry :: result else result

/-- Zeros in front are dropped while a digit stays before the point. -/
def trim_leading (precision : Nat) : List Char → List Char
  | [] => []
  | c :: rest => if rest.length > precision ∧ c = '0' then trim_leading precision rest else c :: rest

def trim_trailing (result : List Char) : List Char :=
  let result := result.rdropWhile (· = '0')
  if result.getLast? = some '.' then result.dropLast else result

def add_decimal_strings (left right : List Char) : Option (List Char) := do
  let (left_integer,left_fraction) ← decimal_parts left
  let (right_integer,right_fraction) ← decimal_parts right
  let precision := max left_fraction.length right_fraction.length
  let left := digits precision left_integer left_fraction
  let right := digits precision right_integer right_fraction
  let result := trim_leading precision (push_carry (add_digits left right (max left.length right.length)))
  if precision > 0 then
    let point := result.length - precision
    return trim_trailing (result.take point ++ '.' :: result.drop point)
  else return result

def COST_KEYS : List String :=
  ["cost","gatewayCost","inferenceCost","inputInferenceCost","marketCost","outputInferenceCost","surchargeCost"]

def add_costs (left right : JsonValue) : Option JsonValue := do
  let sum ← add_decimal_strings (← left.as_str).toList (← right.as_str).toList
  return .string (String.ofList sum)

def sum_of (entry metadata : JsonObject) (key : String) : Option JsonValue := do
  add_costs (← entry.get key) (← metadata.get key)

def sums (entry metadata : JsonObject) : JsonObject :=
  COST_KEYS.filterMap fun key => (sum_of entry metadata key).map (key,·)

def merge_gateway (entry metadata : JsonObject) : JsonObject :=
  let merged := JsonObject.extend (JsonObject.extend entry metadata) (sums entry metadata)
  if merged.get "images" = some (.array []) then merged.swap_remove "images" else merged

def merge_images (entry metadata : JsonObject) : JsonObject :=
  let entry := if (entry.get "images").isNone then entry.insert "images" (.array []) else entry
  match entry.get "images",metadata.get "images" with
  | some (.array existing),some (.array incoming) => entry.insert "images" (.array (existing ++ incoming))
  | _,_ => entry

def merge_image_metadata (target source : ProviderMetadata) : ProviderMetadata :=
  source.foldl (fun target (provider,metadata) => SortedMap.upsert provider (fun entry =>
    let entry := entry.getD []
    if provider = "gateway" then merge_gateway entry metadata else merge_images entry metadata) target) target

/-- The text of a decimal. -/
def join (integer fraction : List Char) : List Char := if fraction = [] then integer else integer ++ '.' :: fraction

def amount (text : List Char) : Option ℚ := (decimal_parts text).map fun (integer,fraction) => value integer fraction

/-- The one text of a decimal without superfluous zeros or point. -/
def CanonicalText (text : List Char) : Prop := ∃ integer fraction, text = join integer fraction ∧ Canonical integer fraction

section
variable {text left right integer fraction : List Char} {c : Char} {n precision : Nat}

theorem not_point (digits : Digits text) : '.' ∉ text := fun member => absurd (digits _ member) (by decide)

theorem takeWhile_digits (digits : Digits integer) (rest : List Char) :
    (integer ++ '.' :: rest).takeWhile (· ≠ '.') = integer ∧ (integer ++ '.' :: rest).dropWhile (· ≠ '.') = '.' :: rest := by
  have other : ∀ c ∈ integer, decide (c ≠ '.') = true := fun c mem =>
    decide_eq_true fun same => not_point digits (same ▸ mem)
  rw [takeWhile_append_of_pos other,dropWhile_append_of_pos other]
  simp

theorem decimal_parts_join (nonempty : integer ≠ []) (digits : Digits integer) (digits' : Digits fraction) :
    decimal_parts (join integer fraction) = some (integer,fraction) := by
  have all : ∀ {text : List Char}, Digits text → text.all Char.isDigit = true := fun d => List.all_eq_true.mpr d
  by_cases whole : fraction = []
  · have other : ∀ c ∈ integer, decide (c ≠ '.') = true := fun c mem =>
      decide_eq_true fun same => not_point digits (same ▸ mem)
    rw [decimal_parts,join,if_pos whole,List.takeWhile_eq_self_iff.mpr other,List.dropWhile_eq_nil_iff.mpr other]
    simp [nonempty,all digits,whole,not_point digits]
  · obtain ⟨taken,dropped⟩ := takeWhile_digits digits fraction
    rw [decimal_parts,join,if_neg whole,taken,dropped]
    simp [nonempty,all digits,all digits',whole]

theorem parts_of_decimal (parts : decimal_parts text = some (integer,fraction)) :
    integer ≠ [] ∧ Digits integer ∧ Digits fraction := by
  rw [decimal_parts] at parts
  split_ifs at parts with bad
  cases parts
  simp only [not_or,not_and,not_not,List.isEmpty_iff,all_eq_true] at bad
  exact ⟨bad.1,bad.2.1,bad.2.2.1⟩

theorem digitChar_spec : ∀ n < 10, (digitChar n).isDigit = true ∧ digitValue (digitChar n) = n := by decide

theorem digit_le (digits : Digits text) (n : Nat) : digit text n ≤ 9 := by
  rw [digit]
  cases found : text.reverse[n]? with
  | none => exact Nat.zero_le 9
  | some c => exact Nat.le_of_lt_succ (digitValue_lt (digits c (List.mem_reverse.mp (mem_of_getElem? found))))

def low (n : Nat) (text : List Char) : Nat := Nat.ofDigits 10 ((text.reverse.take n).map digitValue)

theorem low_succ (n : Nat) (text : List Char) : low (n + 1) text = low n text + 10 ^ n * digit text n := by
  rw [low,low,digit,take_add_one,map_append,Nat.ofDigits_append,length_map]
  cases found : text.reverse[n]? with
  | none => simp
  | some =>
    have inside : n < text.reverse.length := (List.getElem?_eq_some_iff.mp found).1
    rw [length_take,Nat.min_eq_left inside.le]
    simp

theorem low_all (long : text.length ≤ n) : low n text = number text := by
  rw [low,number,take_of_length_le (by simpa using long)]

theorem number_cons (c : Char) (text : List Char) : number (c :: text) = digitValue c * 10 ^ text.length + number text := by
  have one : number [c] = digitValue c := by simp [number]
  rw [← singleton_append,number_append,one]

structure Added (left right : List Char) (n : Nat) (state : List Char × Nat) : Prop where
  result : Digits state.1
  length : state.1.length = n
  carry : state.2 ≤ 1
  sum : number state.1 + state.2 * 10 ^ n = low n left + low n right

theorem add_digits_spec (d : Digits left) (d' : Digits right) (n : Nat) : Added left right n (add_digits left right n) := by
  induction n with
  | zero => exact ⟨nofun,rfl,Nat.zero_le 1,by simp [add_digits,number,low]⟩
  | succ n ih =>
    have bound := digit_le d n
    have bound' := digit_le d' n
    have carry := ih.carry
    rw [add_digits]
    generalize add_digits left right n = state at ih carry
    obtain ⟨result,carried⟩ := state
    dsimp only at ih carry ⊢
    generalize total_ : digit left n + digit right n + carried = total
    obtain ⟨isDigit,spelled⟩ := digitChar_spec (total % 10) (Nat.mod_lt _ (by norm_num))
    refine ⟨fun c mem => ?_,congrArg (· + 1) ih.length,by dsimp only; omega,?_⟩
    · rcases List.mem_cons.mp mem with rfl | mem
      · exact isDigit
      · exact ih.result c mem
    · have split := Nat.mod_add_div total 10
      have before := ih.sum
      dsimp only at before ⊢
      have length : result.length = n := ih.length
      rw [number_cons,spelled,low_succ,low_succ,length,pow_succ]
      calc total % 10 * 10 ^ n + number result + total / 10 * (10 ^ n * 10)
          = (total % 10 + 10 * (total / 10)) * 10 ^ n + number result := by ring
        _ = (digit left n + digit right n) * 10 ^ n + (number result + carried * 10 ^ n) := by rw [split,← total_]; ring
        _ = low n left + 10 ^ n * digit left n + (low n right + 10 ^ n * digit right n) := by rw [before]; ring

theorem value_digits (enough : fraction.length ≤ precision) :
    (number (digits precision integer fraction) : ℚ) / 10 ^ precision = value integer fraction := by
  rw [← value_zeros integer fraction (precision - fraction.length),value,digits,append_assoc,length_append,
    length_replicate,Nat.add_sub_cancel' enough]

theorem trim_leading_spec (digits : Digits text) (long : precision < text.length) :
    Digits (trim_leading precision text) ∧ number (trim_leading precision text) = number text ∧
      precision < (trim_leading precision text).length ∧
      ((trim_leading precision text).head? = some '0' → (trim_leading precision text).length = precision + 1) := by
  induction text with
  | nil => cases long
  | cons c rest ih =>
    rw [trim_leading]
    split_ifs with zero
    · obtain ⟨kept,rfl⟩ := zero
      have none_ : digitValue '0' = 0 := rfl
      rw [number_cons,none_,Nat.zero_mul,Nat.zero_add]
      exact ih (fun c mem => digits c (mem_cons_of_mem _ mem)) kept
    · refine ⟨digits,rfl,long,fun first => ?_⟩
      obtain rfl := some.inj first
      have short : ¬ rest.length > precision := fun kept => zero ⟨kept,rfl⟩
      rw [length_cons] at long ⊢
      omega

theorem trim_trailing_join (d : Digits fraction) :
    trim_trailing (integer ++ '.' :: fraction) = join integer (fraction.rdropWhile (· = '0')) := by
  have zeros : (integer ++ '.' :: fraction).rdropWhile (· = '0') = integer ++ '.' :: fraction.rdropWhile (· = '0') := by
    induction fraction using reverseRecOn with
    | nil => rw [rdropWhile_concat_neg _ _ _ (by decide),rdropWhile_nil]
    | append_singleton _ c ih =>
      rw [← cons_append,← append_assoc,rdropWhile_concat,rdropWhile_concat]
      split_ifs
      · exact ih fun c mem => d c (mem_append_left _ mem)
      · rw [append_assoc,cons_append]
  have kept : Digits (fraction.rdropWhile (· = '0')) := fun c mem => d c (( rdropWhile_prefix _ _).subset mem)
  rw [trim_trailing,zeros,join]
  generalize fraction.rdropWhile (· = '0') = rest at kept
  cases rest using reverseRecOn with
  | nil => simp
  | append_singleton _ c =>
    have digit : c.isDigit = true := kept c (by simp)
    have other : c ≠ '.' := by
      rintro rfl
      exact absurd digit (by decide)
    rw [← cons_append,← append_assoc,getLast?_concat]
    simp [other]

theorem fraction_value (d : Digits fraction) (integer : List Char) :
    value integer (fraction.rdropWhile (· = '0')) = value integer fraction ∧
      (fraction.rdropWhile (· = '0')).getLast? ≠ some '0' := by
  induction fraction using reverseRecOn with
  | nil => exact ⟨rfl,nofun⟩
  | append_singleton init c ih =>
    rw [rdropWhile_concat]
    split_ifs with zero
    · obtain ⟨same,last⟩ := ih fun c mem => d c (mem_append_left _ mem)
      obtain rfl := of_decide_eq_true zero
      exact ⟨same.trans (value_zeros integer init 1).symm,last⟩
    · refine ⟨rfl,fun last => zero ?_⟩
      rw [getLast?_concat] at last
      exact decide_eq_true (some.inj last)

theorem push_carry_spec {state : List Char × Nat} (added : Added left right n state) (long : left.length ≤ n)
    (long' : right.length ≤ n) : Digits (push_carry state) ∧ number (push_carry state) = number left + number right ∧
      n ≤ (push_carry state).length := by
  obtain ⟨_,carry⟩ := state
  obtain ⟨all,length,small,sum⟩ := added
  dsimp only at all length small sum
  rw [low_all long,low_all long'] at sum
  rw [push_carry]
  split_ifs with present
  · obtain rfl : carry = 1 := by omega
    refine ⟨fun c mem => ?_,?_,by rw [length_cons]; omega⟩
    · rcases List.mem_cons.mp mem with rfl | mem
      · decide
      · exact all c mem
    · rw [number_cons,(digitChar_spec 1 (by norm_num)).2,length,← sum,Nat.add_comm]
  · obtain rfl := not_not.mp present
    exact ⟨all,by simpa using sum,length.ge⟩

theorem point_spec (d : Digits text) (long : precision < text.length)
    (leading : text.head? = some '0' → text.length = precision + 1) :
    ∃ integer fraction, (if precision > 0 then
        trim_trailing (text.take (text.length - precision) ++ '.' :: text.drop (text.length - precision))
      else text) = join integer fraction ∧ Canonical integer fraction ∧
      value integer fraction = (number text : ℚ) / 10 ^ precision := by
  generalize point_ : text.length - precision = point
  have places : (text.drop point).length = precision := by rw [length_drop]; omega
  have digits : Digits (text.take point) := fun c mem => d c (mem_of_mem_take mem)
  have digits' : Digits (text.drop point) := fun c mem => d c (mem_of_mem_drop mem)
  obtain ⟨same,trailing⟩ := fraction_value digits' (text.take point)
  refine ⟨text.take point,(text.drop point).rdropWhile (· = '0'),?_,⟨?_,digits,?_,?_,trailing⟩,?_⟩
  · split_ifs with some_
    · exact trim_trailing_join digits'
    · obtain rfl : precision = 0 := by omega
      rw [eq_nil_of_length_eq_zero places,rdropWhile_nil,join,if_pos rfl,take_of_length_le (by omega)]
  · intro none_
    have := congrArg List.length none_
    rw [length_take,length_nil] at this
    omega
  · exact fun c mem => digits' c (( rdropWhile_prefix _ _).subset mem)
  · intro zero
    rw [head?_take,if_neg (by omega)] at zero
    obtain rfl : point = 1 := by have := leading zero; omega
    cases text with
    | nil => cases zero
    | cons => simpa using zero
  · rw [same,value,take_append_drop,places]

theorem add_decimal_spec {left_integer left_fraction right_integer right_fraction : List Char}
    (parts : decimal_parts left = some (left_integer,left_fraction))
    (parts' : decimal_parts right = some (right_integer,right_fraction)) :
    ∃ integer fraction, add_decimal_strings left right = some (join integer fraction) ∧ Canonical integer fraction ∧
      value integer fraction = value left_integer left_fraction + value right_integer right_fraction := by
  obtain ⟨nonempty,d,df⟩ := parts_of_decimal parts
  obtain ⟨_,d',df'⟩ := parts_of_decimal parts'
  rw [add_decimal_strings,parts,parts']
  simp only [Option.bind_eq_bind,bind_some]
  generalize places : max left_fraction.length right_fraction.length = precision
  have all : ∀ {integer fraction : List Char}, Digits integer → Digits fraction → Digits (digits precision integer fraction) :=
    fun d df => (d.append df).append fun c mem => (eq_of_mem_replicate mem) ▸ rfl
  have long : ∀ {integer fraction : List Char}, integer ≠ [] → fraction.length ≤ precision →
      precision < (digits precision integer fraction).length := by
    intro integer fraction nonempty enough
    have := length_pos_of_ne_nil nonempty
    simp only [digits,length_append,length_replicate]
    omega
  have enough : left_fraction.length ≤ precision := places ▸ le_max_left _ _
  have enough' : right_fraction.length ≤ precision := places ▸ le_max_right _ _
  have added := add_digits_spec (all d df) (all d' df')
    (max (digits precision left_integer left_fraction).length (digits precision right_integer right_fraction).length)
  obtain ⟨summed,sum,length⟩ := push_carry_spec added (le_max_left _ _) (le_max_right _ _)
  obtain ⟨trimmed,same,kept,leading⟩ := trim_leading_spec summed
    ((long nonempty enough).trans_le ((le_max_left _ _).trans length))
  obtain ⟨integer,fraction,result,canonical,spelled⟩ := point_spec trimmed kept leading
  refine ⟨integer,fraction,?_,canonical,?_⟩
  · rw [← result]
    split_ifs <;> rfl
  · rw [spelled,same,sum,Nat.cast_add,add_div,value_digits enough,value_digits enough']

theorem CanonicalText.unique (c : CanonicalText left) (c' : CanonicalText right) (same : amount left = amount right) :
    left = right := by
  obtain ⟨_,_,rfl,c⟩ := c
  obtain ⟨_,_,rfl,c'⟩ := c'
  rw [amount,amount,decimal_parts_join c.nonempty c.integer_digits c.fraction_digits,
    decimal_parts_join c'.nonempty c'.integer_digits c'.fraction_digits] at same
  obtain ⟨rfl,rfl⟩ := c.unique c' (some.inj same)
  rfl

theorem add_amount {x y : ℚ} (spelled : amount left = some x) (spelled' : amount right = some y) :
    ∃ sum, add_decimal_strings left right = some sum ∧ CanonicalText sum ∧ amount sum = some (x + y) := by
  obtain ⟨⟨_,_⟩,parts,rfl⟩ := map_eq_some_iff.mp spelled
  obtain ⟨⟨_,_⟩,parts',rfl⟩ := map_eq_some_iff.mp spelled'
  obtain ⟨_,_,added,canonical,same⟩ := add_decimal_spec parts parts'
  refine ⟨_,added,⟨_,_,rfl,canonical⟩,?_⟩
  rw [amount,decimal_parts_join canonical.nonempty canonical.integer_digits canonical.fraction_digits]
  exact congrArg some same

end

/-! ### Costs of merged metadata -/

def cost (metadata : ProviderMetadata) (key : String) : Option JsonValue :=
  (metadata.lookup "gateway").bind (JsonObject.get · key)

def paid (cost : JsonValue) : Option ℚ := cost.as_str.bind fun text => amount text.toList

structure Valid (metadata : ProviderMetadata) : Prop where
  sorted : SortedMap.Sorted metadata
  keyed : ∀ gateway, metadata.lookup "gateway" = some gateway → JsonObject.Keyed gateway
  decimal : ∀ key ∈ COST_KEYS, ∀ value, cost metadata key = some value → ∃ x, paid value = some x

/-- What stands under a cost key once the metadata with these costs is merged. -/
structure Summed (present : List JsonValue) (result : Option JsonValue) : Prop where
  none : present = [] → result = none
  one : ∀ value, present = [value] → result = some value
  sum : present ≠ [] → ∃ text, result = some (.string text) ∧
    amount text.toList = some (present.map fun value => (paid value).getD 0).sum
  canonical : 2 ≤ present.length → ∀ text, result = some (.string text) → CanonicalText text.toList

section
variable {source target : ProviderMetadata} {sources sources' : List ProviderMetadata} {entry metadata : JsonObject} {key : String}

theorem keyed_sums (entry metadata : JsonObject) : JsonObject.Keyed (sums entry metadata) := by
  have keys : ((sums entry metadata).map (·.1)).Sublist COST_KEYS := by
    rw [sums,map_filterMap]
    induction COST_KEYS with
    | nil => exact .slnil
    | cons key _ ih =>
      rw [filterMap_cons]
      cases sum_of entry metadata key with
      | none => exact .cons _ ih
      | some => exact .cons_cons _ ih
  exact List.Nodup.sublist keys (by decide)

theorem get_sums (known : key ∈ COST_KEYS) : (sums entry metadata).get key = sum_of entry metadata key := by
  refine ext fun value => ?_
  rw [get_eq_some (keyed_sums entry metadata),sums,mem_filterMap]
  constructor
  · rintro ⟨_,-,found⟩
    obtain ⟨_,found,same⟩ := map_eq_some_iff.mp found
    cases same
    exact found
  · exact fun found => ⟨key,known,by rw [found]; rfl⟩

theorem get_merge_gateway (keyed : JsonObject.Keyed entry) (keyed' : JsonObject.Keyed metadata) (known : key ∈ COST_KEYS) :
    (merge_gateway entry metadata).get key = (sum_of entry metadata key).or ((metadata.get key).or (entry.get key)) := by
  have other : key ≠ "images" := by
    rintro rfl
    exact absurd known (by decide)
  have merged := (keyed.extend metadata).extend (sums entry metadata)
  have value := get_extend (extend entry metadata) (keyed_sums entry metadata) key
  rw [get_sums known,get_extend entry keyed'] at value
  rw [merge_gateway]
  split_ifs
  · rw [get_swap_remove merged,if_neg other,value]
  · exact value

theorem keyed_merge_gateway (keyed : JsonObject.Keyed entry) : JsonObject.Keyed (merge_gateway entry metadata) := by
  have merged := (keyed.extend metadata).extend (sums entry metadata)
  rw [merge_gateway]
  split_ifs
  · exact merged.swap_remove "images"
  · exact merged

section
variable (sorted : SortedMap.Sorted target)
include sorted

theorem sorted_merge (source : ProviderMetadata) :
    SortedMap.Sorted (merge_image_metadata target source) := by
  rw [merge_image_metadata]
  induction source generalizing target with
  | nil => exact sorted
  | cons _ _ ih => exact ih sorted.upsert

theorem lookup_merge (unique : (source.map (·.1)).Nodup) :
    (merge_image_metadata target source).lookup "gateway" =
      match source.lookup "gateway" with
      | none => target.lookup "gateway"
      | some metadata => some (merge_gateway ((target.lookup "gateway").getD []) metadata) := by
  rw [merge_image_metadata]
  induction source generalizing target with
  | nil => rfl
  | cons entry rest ih =>
    obtain ⟨fresh,unique⟩ := List.nodup_cons.mp unique
    rw [foldl_cons,ih sorted.upsert unique,SortedMap.lookup_upsert sorted,Assoc.lookup_entry]
    by_cases here : "gateway" = entry.1
    · have absent : rest.lookup "gateway" = none := Assoc.lookup_none (here ▸ fresh)
      rw [absent,if_pos here,if_pos here,if_pos here.symm,← here]
    · rw [if_neg here,if_neg here]

section
variable (keyed : ∀ gateway, target.lookup "gateway" = some gateway → JsonObject.Keyed gateway)
include keyed

theorem cost_merge
   (valid : Valid source)
    (known : key ∈ COST_KEYS) : cost (merge_image_metadata target source) key =
      match cost source key with
      | none => cost target key
      | some new => some (((cost target key).bind (add_costs · new)).getD new) := by
  rw [cost,cost,lookup_merge sorted valid.sorted.nodup]
  cases found : source.lookup "gateway" with
  | none => rfl
  | some metadata =>
    have keyed' : JsonObject.Keyed ((target.lookup "gateway").getD []) := by
      cases held : target.lookup "gateway" with
      | none => exact .nil
      | some gateway => exact keyed gateway held
    have old : cost target key = ((target.lookup "gateway").getD []).get key := by
      rw [cost]
      cases target.lookup "gateway" <;> rfl
    dsimp only [bind_some]
    rw [get_merge_gateway keyed' (valid.keyed metadata found) known,old,sum_of]
    cases metadata.get key with
    | none => cases ((target.lookup "gateway").getD []).get key <;> rfl
    | some new =>
      cases ((target.lookup "gateway").getD []).get key with
      | none => rfl
      | some held => cases added : add_costs held new <;> simp [added]

theorem keyed_merge
   (valid : Valid source) :
    ∀ gateway, (merge_image_metadata target source).lookup "gateway" = some gateway → JsonObject.Keyed gateway := by
  intro gateway found
  rw [lookup_merge sorted valid.sorted.nodup] at found
  split at found
  · exact keyed gateway found
  · obtain rfl := some.inj found
    refine keyed_merge_gateway ?_
    cases held : target.lookup "gateway" with
    | none => exact .nil
    | some gateway => exact keyed gateway held

end

end

theorem text_of_paid {value : JsonValue} {x : ℚ} (spelled : paid value = some x) :
    ∃ text : String, value = .string text ∧ amount text.toList = some x := by
  cases value with
  | string text => exact ⟨text,rfl,spelled⟩
  | _ => cases spelled

theorem Summed.push {present : List JsonValue} {result : Option JsonValue} {new : JsonValue} {y : ℚ}
    (summed : Summed present result) (spelled : paid new = some y) :
    Summed (present ++ [new]) (some ((result.bind (add_costs · new)).getD new)) := by
  obtain ⟨text,rfl,amount_⟩ := text_of_paid spelled
  by_cases first : present = []
  · subst first
    rw [summed.none rfl]
    refine ⟨nofun,fun value same => congrArg some (List.cons.inj same).1,fun _ => ⟨text,rfl,?_⟩,fun two => ?_⟩
    · simp [spelled,amount_]
    · exact absurd two (by simp)
  · obtain ⟨before,rfl,total⟩ := summed.sum first
    obtain ⟨sum,added,_,number⟩ := add_amount total amount_
    have value : add_costs (.string before) (.string text) = some (.string (String.ofList sum)) := by
      simp [add_costs,JsonValue.as_str,added]
    rw [bind_some,value,Option.getD_some]
    refine ⟨fun none_ => absurd none_ (by simp),fun value only => ?_,fun _ => ⟨_,rfl,?_⟩,fun _ text' same => ?_⟩
    · have length := congrArg List.length only
      rw [length_append,length_singleton,length_singleton] at length
      exact absurd (eq_nil_of_length_eq_zero (by omega)) first
    · rw [String.toList_ofList,number]
      simp [spelled]
    · obtain rfl := JsonValue.string.inj (some.inj same)
      rwa [String.toList_ofList]

theorem fold_costs (valid : ∀ source ∈ sources, Valid source) :
    SortedMap.Sorted (sources.foldl merge_image_metadata []) ∧
    (∀ gateway, (sources.foldl merge_image_metadata []).lookup "gateway" = some gateway → JsonObject.Keyed gateway) ∧
    ∀ key ∈ COST_KEYS, Summed (sources.filterMap (cost · key)) (cost (sources.foldl merge_image_metadata []) key) := by
  induction sources using reverseRecOn with
  | nil =>
    exact ⟨.nil,nofun,fun key _ => ⟨fun _ => rfl,nofun,fun some_ => absurd rfl some_,nofun⟩⟩
  | append_singleton _ source ih =>
    obtain ⟨sorted,keyed,summed⟩ := ih fun other mem => valid other (mem_append_left _ mem)
    have last := valid source (by simp)
    rw [foldl_concat]
    refine ⟨sorted_merge sorted source,keyed_merge sorted keyed last,fun key known => ?_⟩
    rw [cost_merge sorted keyed last known,filterMap_append]
    cases new : cost source key with
    | none => simpa [new] using summed key known
    | some value =>
      obtain ⟨x,spelled⟩ := last.decimal key known value new
      simpa [new] using (summed key known).push spelled

theorem fold_costs_perm (valid : ∀ source ∈ sources, Valid source) (same : sources'.Perm sources) (known : key ∈ COST_KEYS) :
    (cost (sources'.foldl merge_image_metadata []) key).bind paid = (cost (sources.foldl merge_image_metadata []) key).bind paid := by
  have one := (fold_costs valid).2.2 key known
  have other := (fold_costs fun source mem => valid source (same.mem_iff.mp mem)).2.2 key known
  have costs := same.filterMap (cost · key)
  by_cases none_ : sources.filterMap (cost · key) = []
  · rw [one.none none_,other.none (none_ ▸ costs).eq_nil]
  · obtain ⟨_,found,total⟩ := one.sum none_
    obtain ⟨_,found',total'⟩ := other.sum fun empty => none_ (empty ▸ costs).symm.eq_nil
    rw [found,found']
    have sums := (costs.map fun value => (paid value).getD 0).sum_eq
    exact total'.trans ((congrArg some sums).trans total.symm)

end

/-- Costs are added exactly, to canonical texts, in any order and grouping, and merged metadata holds their sums. -/
theorem costs_added_exactly :
    (∀ left right x y, amount left = some x → amount right = some y →
      ∃ sum, add_decimal_strings left right = some sum ∧ CanonicalText sum ∧ amount sum = some (x + y)) ∧
    (∀ left right, (amount left).isSome → (amount right).isSome →
      add_decimal_strings left right = add_decimal_strings right left) ∧
    (∀ first second third, (amount first).isSome → (amount second).isSome → (amount third).isSome →
      (add_decimal_strings first second).bind (add_decimal_strings · third) =
        (add_decimal_strings second third).bind (add_decimal_strings first ·)) ∧
    ∀ sources : List ProviderMetadata, (∀ source ∈ sources, Valid source) → ∀ key ∈ COST_KEYS,
      Summed (sources.filterMap (cost · key)) (cost (sources.foldl merge_image_metadata []) key) ∧
      ∀ sources' : List ProviderMetadata, sources'.Perm sources → (cost (sources'.foldl merge_image_metadata []) key).bind paid =
        (cost (sources.foldl merge_image_metadata []) key).bind paid := by
  refine ⟨fun _ _ _ _ => add_amount,?_,?_,fun sources valid key known =>
    ⟨(fold_costs valid).2.2 key known,fun sources' same => fold_costs_perm valid same known⟩⟩
  · intro left right some_ some_'
    obtain ⟨x,spelled⟩ := isSome_iff_exists.mp some_
    obtain ⟨y,spelled'⟩ := isSome_iff_exists.mp some_'
    obtain ⟨sum,added,canonical,total⟩ := add_amount spelled spelled'
    obtain ⟨sum',added',canonical',total'⟩ := add_amount spelled' spelled
    rw [added,added',canonical.unique canonical' (by rw [total,total',add_comm])]
  · intro first second third some_ some_' some_''
    obtain ⟨x,spelled⟩ := isSome_iff_exists.mp some_
    obtain ⟨y,spelled'⟩ := isSome_iff_exists.mp some_'
    obtain ⟨z,spelled''⟩ := isSome_iff_exists.mp some_''
    obtain ⟨left,added,-,total⟩ := add_amount spelled spelled'
    obtain ⟨right,added',-,total'⟩ := add_amount spelled' spelled''
    obtain ⟨sum,whole,canonical,number⟩ := add_amount total spelled''
    obtain ⟨sum',whole',canonical',number'⟩ := add_amount spelled total'
    rw [added,added',bind_some,bind_some,whole,whole',
      canonical.unique canonical' (by rw [number,number',add_assoc])]

/-- Two sources with a cost each. -/
theorem costs_added_tenths :
    let sources : List ProviderMetadata := [[("gateway",[("cost",.string "0.1")])],[("gateway",[("cost",.string "0.20")])]]
    Summed (sources.filterMap (cost · "cost")) (cost (sources.foldl merge_image_metadata []) "cost") := by
  refine (costs_added_exactly.2.2.2 _ ?_ "cost" (by decide)).1
  have one (text : String) (x : ℚ) (spelled : amount text.toList = some x) : Valid [("gateway",[("cost",.string text)])] := by
    refine ⟨pairwise_singleton _ _,fun gateway found => ?_,fun key _ value found => ?_⟩
    · obtain rfl := some.inj found
      exact nodup_singleton _
    · have known := Assoc.mem_of_lookup (show [("cost",JsonValue.string text)].lookup key = some value from found)
      obtain ⟨-,rfl⟩ := Prod.mk.inj (List.mem_singleton.mp known)
      exact ⟨x,spelled⟩
  rintro source member
  rcases List.mem_cons.mp member with rfl | member
  · exact one "0.1" (1 / 10) rfl
  · obtain rfl := List.mem_singleton.mp member
    exact one "0.20" (2 / 10) (by decide +kernel)

end Ferrin.ModalityMetadata
