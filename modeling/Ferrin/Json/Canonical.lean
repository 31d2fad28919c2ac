import Mathlib.Data.String.Basic
import Ferrin.Json.Positions
import Ferrin.Json.Reading

/-!
Values with the same canonical text are those that are equal up to the order of
the keys (`canonical_iff`).
-/
namespace Ferrin.Canonical
open List JsonValue
open JsonText (Compact)
open JsonObject (get_eq_some)

/-- Equal up to the order of the keys at every level, and the way a number is held. -/
inductive Same (p : Primitives) : JsonValue → JsonValue → Prop where
  | null : Same p .null .null
  | bool (value : Bool) : Same p (.bool value) (.bool value)
  | number {m n : JsonNumber} (text : number_text p m = number_text p n) : Same p (.number m) (.number n)
  | string (text : String) : Same p (.string text) (.string text)
  | array {xs ys : List JsonValue} (length : xs.length = ys.length)
      (items : ∀ (i : Nat) (x y : JsonValue), xs[i]? = some x → ys[i]? = some y → Same p x y) : Same p (.array xs) (.array ys)
  | object {xs ys : JsonObject} (keys : ∀ key : String, (xs.lookup key).isSome = (ys.lookup key).isSome)
      (members : ∀ (key : String) (x y : JsonValue), xs.lookup key = some x → ys.lookup key = some y → Same p x y) :
      Same p (.object xs) (.object ys)

/-- A value as `serde_json` holds it. -/
structure Holds (v : JsonValue) : Prop where
  keyed : v.Keyed
  finite : FloatsFinite v

def sortKeys {β : Type} (entries : List (String × β)) : List (String × β) := entries.insertionSort (·.1 ≤ ·.1)

mutual

def sorted : JsonValue → JsonValue
  | .array items => .array (sortedItems items)
  | .object entries => .object (sortKeys (sortedEntries entries))
  | v => v

def sortedItems : List JsonValue → List JsonValue
  | [] => []
  | item :: rest => sorted item :: sortedItems rest

def sortedEntries : List (String × JsonValue) → List (String × JsonValue)
  | [] => []
  | (key,value) :: rest => (key,sorted value) :: sortedEntries rest

end

/-! ### Sorted entries -/

section
variable {β γ : Type} {xs ys : List (String × β)}

theorem sortKeys_perm (xs : List (String × β)) : (sortKeys xs).Perm xs := List.perm_insertionSort _ xs

theorem sortKeys_sorted (xs : List (String × β)) : (sortKeys xs).Pairwise (·.1 ≤ ·.1) := by
  have : Std.Total fun a b : String × β => a.1 ≤ b.1 := ⟨fun a b => le_total a.1 b.1⟩
  have : IsTrans (String × β) fun a b => a.1 ≤ b.1 := ⟨fun _ _ _ => le_trans⟩
  exact pairwise_insertionSort _ xs

theorem sortKeys_map (f : β → γ) (xs : List (String × β)) :
    sortKeys (xs.map fun e => (e.1,f e.2)) = (sortKeys xs).map fun e => (e.1,f e.2) := by
  symm
  refine map_insertionSort (fun a b : String × β => a.1 ≤ b.1) (fun a b : String × γ => a.1 ≤ b.1)
    (fun e => (e.1,f e.2)) xs fun _ _ _ _ => Iff.rfl

theorem sortKeys_eq_iff (keyed : (xs.map (·.1)).Nodup) : sortKeys xs = sortKeys ys ↔ xs.Perm ys := by
  constructor
  · intro same
    exact (sortKeys_perm xs).symm.trans (same ▸ sortKeys_perm ys)
  · intro perm
    have antisymm : ∀ a b : String × β, a ∈ sortKeys xs → b ∈ sortKeys ys → a.1 ≤ b.1 → b.1 ≤ a.1 → a = b := by
      intro a b first second less more
      have here : b ∈ xs := perm.mem_iff.mpr ((sortKeys_perm ys).mem_iff.mp second)
      exact inj_on_of_nodup_map keyed ((sortKeys_perm xs).mem_iff.mp first) here (le_antisymm less more)
    exact List.Perm.eq_of_pairwise antisymm (sortKeys_sorted xs) (sortKeys_sorted ys)
      (((sortKeys_perm xs).trans perm).trans (sortKeys_perm ys).symm)

end

section
variable {p : Primitives} {xs ys : JsonObject}

variable (items : List JsonValue)

theorem sortedItems_eq : sortedItems items = items.map sorted := by
  induction items with
  | nil => rfl
  | cons _ _ ih => rw [sortedItems,ih,map_cons]

variable (entries : JsonObject)

theorem sortedEntries_eq : sortedEntries entries = entries.map fun e => (e.1,sorted e.2) := by
  induction entries with
  | nil => rfl
  | cons _ _ ih => rw [sortedEntries,ih,map_cons]

theorem write_items_eq : write_items p items = items.map (write_canonical p) := by
  induction items with
  | nil => rfl
  | cons _ _ ih => rw [write_items,ih,map_cons]

theorem write_entries_eq : write_entries p entries = entries.map fun e => (e.1,write_canonical p e.2) := by
  induction entries with
  | nil => rfl
  | cons _ _ ih => rw [write_entries,ih,map_cons]

theorem compact_items_eq : compact_items p items = items.map (write_compact p) := by
  induction items with
  | nil => rfl
  | cons _ _ ih => rw [compact_items,ih,map_cons]

theorem compact_entries_eq :
    compact_entries p entries = entries.map fun e => quoted e.1 ++ ':' :: write_compact p e.2 := by
  induction entries with
  | nil => rfl
  | cons _ _ ih => rw [compact_entries,ih,map_cons]

theorem denoted_items_eq : denoted_items p items = items.map (denoted p) := by
  induction items with
  | nil => rfl
  | cons _ _ ih => rw [denoted_items,ih,map_cons]

theorem denoted_entries_eq :
    denoted_entries p entries = entries.map fun e => (e.1.toList,denoted p e.2) := by
  induction entries with
  | nil => rfl
  | cons _ _ ih => rw [denoted_entries,ih,map_cons]

theorem depth_induction {P : JsonValue → Prop} (step : ∀ v, (∀ w, w.depth < v.depth → P w) → P v) (v : JsonValue) : P v := by
  induction known : v.depth using Nat.strongRecOn generalizing v with
  | ind n ih => exact step v fun w less => ih w.depth (known ▸ less) w rfl

theorem write_canonical_eq (v : JsonValue) : write_canonical p v = write_compact p (sorted v) := by
  induction v using depth_induction with
  | step v ih =>
    cases v with
    | array items =>
      have each : items.map (write_canonical p) = items.map fun item => write_compact p (sorted item) :=
        map_congr_left fun item member => ih item (depth_item member)
      rw [write_canonical,sorted,write_compact,write_items_eq,each,compact_items_eq,sortedItems_eq,map_map]
      rfl
    | object entries =>
      have each : (entries.map fun e => (e.1,write_canonical p e.2)) = entries.map fun e => (e.1,write_compact p (sorted e.2)) :=
        map_congr_left fun entry member => by rw [ih entry.2 (depth_entry member)]
      have order : (entries.map fun e => (e.1,write_compact p (sorted e.2))).insertionSort (·.1 ≤ ·.1) =
          (sortKeys (entries.map fun e => (e.1,sorted e.2))).map fun e => (e.1,write_compact p e.2) := by
        rw [← sortKeys_map,map_map]
        rfl
      rw [write_canonical,sorted,write_compact,write_entries_eq,each,order,compact_entries_eq,sortedEntries_eq,map_map]
      rfl
    | bool value => cases value <;> rfl
    | null | number | string => rfl

theorem sorted_finite {v : JsonValue} (finite : FloatsFinite v) : FloatsFinite (sorted v) := by
  induction v using depth_induction with
  | step v ih =>
    cases v with
    | array items =>
      have each := itemsFinite_iff.mp (show ItemsFinite items from finite)
      show ItemsFinite (sortedItems items)
      rw [sortedItems_eq,itemsFinite_iff]
      intro item mem
      obtain ⟨old,within,rfl⟩ := List.mem_map.mp mem
      exact ih old (depth_item within) (each old within)
    | object entries =>
      have each := entriesFinite_iff.mp (show EntriesFinite entries from finite)
      show EntriesFinite (sortKeys (sortedEntries entries))
      rw [sortedEntries_eq,entriesFinite_iff]
      intro entry mem
      obtain ⟨old,within,rfl⟩ := List.mem_map.mp ((sortKeys_perm _).mem_iff.mp mem)
      exact ih old.2 (depth_entry within) (each old within)
    | _ => exact finite

mutual

def spell : JsonText.Value → List Char
  | .null => ['n','u','l','l']
  | .bool true => ['t','r','u','e']
  | .bool false => ['f','a','l','s','e']
  | .number token => token
  | .string text => '"' :: (text.flatMap escape_char ++ ['"'])
  | .array items => '[' :: (commas (spell_items items) ++ [']'])
  | .object members => '\x7b' :: (commas (spell_members members) ++ ['\x7d'])

def spell_items : List JsonText.Value → List (List Char)
  | [] => []
  | item :: rest => spell item :: spell_items rest

def spell_members : List (List Char × JsonText.Value) → List (List Char)
  | [] => []
  | (key,value) :: rest => ('"' :: (key.flatMap escape_char ++ ['"']) ++ ':' :: spell value) :: spell_members rest

end

mutual

theorem spell_denoted : ∀ v : JsonValue, spell (denoted p v) = write_compact p v
  | .null | .number _ | .string _ | .bool true | .bool false => rfl
  | .array items => by rw [denoted,spell,write_compact,spell_items_denoted items]
  | .object entries => by rw [denoted,spell,write_compact,spell_members_denoted entries]

theorem spell_items_denoted : ∀ items : List JsonValue, spell_items (denoted_items p items) = compact_items p items
  | [] => rfl
  | item :: rest => by rw [denoted_items,spell_items,compact_items,spell_denoted item,spell_items_denoted rest]

theorem spell_members_denoted : ∀ entries : JsonObject, spell_members (denoted_entries p entries) = compact_entries p entries
  | [] => rfl
  | (key,value) :: rest => by
    rw [denoted_entries,spell_members,compact_entries,spell_denoted value,spell_members_denoted rest]
    rfl

end

theorem write_compact_eq_iff (floats : p.WritesFloats) {v w : JsonValue} (first : FloatsFinite v) (second : FloatsFinite w) :
    write_compact p v = write_compact p w ↔ denoted p v = denoted p w := by
  constructor
  · intro same
    exact (compact_denoted floats v first).text.unique (same ▸ (compact_denoted floats w second).text)
  · intro same
    rw [← spell_denoted,same,spell_denoted]

def named (p : Primitives) (entries : JsonObject) : List (String × JsonText.Value) :=
  entries.map fun e => (e.1,denoted p (sorted e.2))

theorem named_keys : (named p entries).map (·.1) = entries.map (·.1) := by
  rw [named,map_map]
  rfl

theorem denoted_object :
    denoted p (sorted (.object entries)) = .object ((sortKeys (named p entries)).map fun e => (e.1.toList,e.2)) := by
  have order : sortKeys (named p entries) = (sortKeys (entries.map fun e => (e.1,sorted e.2))).map fun e => (e.1,denoted p e.2) := by
    rw [← sortKeys_map,map_map]
    rfl
  rw [sorted,denoted,denoted_entries_eq,sortedEntries_eq,order,map_map]
  rfl

theorem denoted_object_eq_iff (keyed : xs.Keyed) :
    denoted p (sorted (.object xs)) = denoted p (sorted (.object ys)) ↔ (named p xs).Perm (named p ys) := by
  have spelled : Function.Injective fun e : String × JsonText.Value => (e.1.toList,e.2) := by
    rintro ⟨a,v⟩ ⟨b,w⟩ same
    obtain ⟨text,value⟩ := Prod.mk.inj same
    exact Prod.ext (String.toList_injective text) value
  rw [denoted_object,denoted_object,JsonText.Value.object.injEq,(List.map_injective_iff.mpr spelled).eq_iff]
  exact sortKeys_eq_iff (by rw [named_keys]; exact keyed)

theorem mem_named {key : String} {x : JsonText.Value} :
    (key,x) ∈ named p xs ↔ ∃ v, (key,v) ∈ xs ∧ denoted p (sorted v) = x := by
  simp [named]

/-- Entries of distinct keys denote the same when they have the same keys and under each the same. -/
theorem named_perm_iff (keyed : xs.Keyed) (keyed' : ys.Keyed) : (named p xs).Perm (named p ys) ↔
    (∀ key : String, (xs.lookup key).isSome = (ys.lookup key).isSome) ∧
      ∀ (key : String) (x y : JsonValue), xs.lookup key = some x → ys.lookup key = some y →
        denoted p (sorted x) = denoted p (sorted y) := by
  have distinct : (named p xs).Nodup := List.Nodup.of_map (·.1) (by rw [named_keys]; exact keyed)
  have distinct' : (named p ys).Nodup := List.Nodup.of_map (·.1) (by rw [named_keys]; exact keyed')
  rw [perm_ext_iff_of_nodup distinct distinct']
  constructor
  · intro same
    have there : ∀ (key : String) (x : JsonValue), xs.lookup key = some x →
        ∃ y, ys.lookup key = some y ∧ denoted p (sorted y) = denoted p (sorted x) := by
      intro key x found
      have mem := (same _).mp (mem_named.mpr ⟨x,Assoc.mem_of_lookup found,rfl⟩)
      obtain ⟨y,within,denotes⟩ := mem_named.mp mem
      exact ⟨y,(get_eq_some keyed').mpr within,denotes⟩
    refine ⟨fun key => ?_,fun key x y found found' => ?_⟩
    · rw [Bool.eq_iff_iff,Option.isSome_iff_exists,Option.isSome_iff_exists]
      constructor
      · rintro ⟨x,found⟩
        obtain ⟨y,found',-⟩ := there key x found
        exact ⟨y,found'⟩
      · rintro ⟨y,found⟩
        have mem := (same _).mpr (mem_named.mpr ⟨y,Assoc.mem_of_lookup found,rfl⟩)
        obtain ⟨x,within,-⟩ := mem_named.mp mem
        exact ⟨x,(get_eq_some keyed).mpr within⟩
    · obtain ⟨_,found'',denotes⟩ := there key x found
      obtain rfl := Option.some.inj (found'.symm.trans found'')
      exact denotes.symm
  · rintro ⟨keys,members⟩ ⟨key,x⟩
    rw [mem_named,mem_named]
    constructor
    · rintro ⟨v,within,rfl⟩
      have found := (get_eq_some keyed).mpr within
      obtain ⟨w,found'⟩ := Option.isSome_iff_exists.mp ((keys key).symm.trans (Option.isSome_of_eq_some found))
      exact ⟨w,Assoc.mem_of_lookup found',(members key v w found found').symm⟩
    · rintro ⟨w,within,rfl⟩
      have found' := (get_eq_some keyed').mpr within
      obtain ⟨v,found⟩ := Option.isSome_iff_exists.mp ((keys key).trans (Option.isSome_of_eq_some found'))
      exact ⟨v,Assoc.mem_of_lookup found,members key v w found found'⟩

theorem denoted_sorted_iff {v w : JsonValue} (keyed : v.Keyed) (keyed' : w.Keyed) :
    denoted p (sorted v) = denoted p (sorted w) ↔ Same p v w := by
  induction v using depth_induction generalizing w with
  | step v ih =>
    constructor
    · intro same
      cases v <;> cases w <;> simp only [sorted,denoted,reduceCtorEq,JsonText.Value.bool.injEq,JsonText.Value.number.injEq,
        JsonText.Value.string.injEq] at same
      case null.null => exact .null
      case bool.bool => exact same ▸ .bool _
      case number.number => exact .number same
      case string.string => exact String.toList_injective same ▸ .string _
      case array.array items others =>
        rw [JsonText.Value.array.injEq,denoted_items_eq,denoted_items_eq,sortedItems_eq,sortedItems_eq,map_map,
          map_map] at same
        refine .array (by simpa using congrArg List.length same) fun i x y first second => ?_
        have here := congrArg (·[i]?) same
        simp only [getElem?_map,first,second,Option.map_some,Option.some.injEq,Function.comp_apply] at here
        have inside := mem_of_getElem? first
        exact (ih x (depth_item inside) (keyed.item x inside) (keyed'.item y (mem_of_getElem? second))).mp here
      case object.object entries others =>
        have perm := (denoted_object_eq_iff keyed.keys).mp (show denoted p (sorted (.object entries)) =
          denoted p (sorted (.object others)) by simpa only [sorted,denoted] using same)
        obtain ⟨keys,members⟩ := (named_perm_iff keyed.keys keyed'.keys).mp perm
        exact .object keys fun key x y found found' =>
          (ih x (depth_get found) (keyed.get found) (keyed'.get found')).mp (members key x y found found')
    · intro same
      cases same with
      | null | bool | string => rfl
      | number text => exact congrArg JsonText.Value.number text
      | @array xs ys length items =>
        simp only [sorted,denoted,denoted_items_eq,sortedItems_eq,map_map]
        refine congrArg JsonText.Value.array (ext_getElem? fun i => ?_)
        rw [getElem?_map,getElem?_map]
        cases first : xs[i]? with
        | none =>
          have short : ys[i]? = none := by
            rw [List.getElem?_eq_none_iff] at first ⊢
            omega
          rw [short]
        | some x =>
          obtain ⟨y,second⟩ : ∃ y, ys[i]? = some y := by
            have less := (List.getElem?_eq_some_iff.mp first).1
            exact ⟨_,getElem?_eq_getElem (length ▸ less)⟩
          rw [second]
          have inside := mem_of_getElem? first
          exact congrArg some ((ih x (depth_item inside) (keyed.item x inside)
            (keyed'.item y (mem_of_getElem? second))).mpr (items i x y first second))
      | @object xs ys keys members =>
        refine (denoted_object_eq_iff keyed.keys).mpr ((named_perm_iff keyed.keys keyed'.keys).mpr ⟨keys,?_⟩)
        intro key x y found found'
        exact (ih x (depth_get found) (keyed.get found) (keyed'.get found')).mpr (members key x y found found')

theorem canonical_iff (floats : p.WritesFloats) {v w : JsonValue} (first : Holds v) (second : Holds w) :
    canonical_json p v = canonical_json p w ↔ Same p v w := by
  unfold canonical_json
  rw [String.ofList_inj,write_canonical_eq,write_canonical_eq,
    write_compact_eq_iff floats (sorted_finite first.finite) (sorted_finite second.finite),
    denoted_sorted_iff first.keyed second.keyed]

end

end Ferrin.Canonical
