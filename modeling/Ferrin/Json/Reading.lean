import Ferrin.Json.Compact
import Ferrin.Json.Object
import Ferrin.Library.JsonUnique

/-!
What `serde_json` holds of the value of a JSON text, and what it reads and writes.
-/
namespace Ferrin
open List Option String JsonObject
open JsonText (Value Text Compact)
open Option (bind_eq_some_iff map_eq_some_iff some)
open String (ofList)

section
variable (number : List Char → Option JsonNumber)

mutual

def held : Nat → Value → Option JsonValue
  | _, .null => some .null
  | _, .bool value => some (.bool value)
  | _, .number token => (number token).map .number
  | _, .string text => some (.string (ofList text))
  | n + 1, .array items => (held_items n items).map .array
  | n + 1, .object members => (held_members n members).map fun entries => .object (JsonObject.extend [] entries)
  | 0, .array _ | 0, .object _ => none

def held_items : Nat → List Value → Option (List JsonValue)
  | _, [] => some []
  | n, item :: rest => do return (← held n item) :: (← held_items n rest)

def held_members : Nat → List (List Char × Value) → Option JsonObject
  | _, [] => some []
  | n, (key,value) :: rest => do return (ofList key,← held n value) :: (← held_members n rest)

end

def NumbersFinite : Prop := ∀ token n, number token = some n → FloatsFinite (.number n)

end

/-- `serde_json` reads the texts of the values that it can hold, and writes compactly. -/
structure SerdeJson (from_str : String → Option JsonValue) (to_string : JsonValue → String) (p : Primitives)
    (number : List Char → Option JsonNumber) (limit : Nat) : Prop where
  reads : ∀ text v, from_str text = some v ↔ ∃ w, Text text.toList w ∧ held number limit w = some v
  writes : ∀ v, to_string v = ofList (write_compact p v)
  numbers : NumbersFinite number
  floats : p.WritesFloats

section
variable {number : List Char → Option JsonNumber} {n : Nat}

theorem itemsFinite_iff {items : List JsonValue} : ItemsFinite items ↔ ∀ item ∈ items, FloatsFinite item := by
  induction items with
  | nil => simp [ItemsFinite]
  | cons _ _ ih => simp [ItemsFinite,ih]

theorem entriesFinite_iff {entries : JsonObject} : EntriesFinite entries ↔ ∀ entry ∈ entries, FloatsFinite entry.2 := by
  induction entries with
  | nil => simp [EntriesFinite]
  | cons _ _ ih => simp [EntriesFinite,ih]

theorem entriesFinite_insert {o : JsonObject} (finite : EntriesFinite o) (key : String) {value : JsonValue}
    (own : FloatsFinite value) : EntriesFinite (o.insert key value) := by
  rw [entriesFinite_iff] at finite ⊢
  intro entry mem
  unfold JsonObject.insert at mem
  split_ifs at mem
  · obtain ⟨before,within,rfl⟩ := List.mem_map.mp mem
    split_ifs
    · exact own
    · exact finite before within
  · rcases List.mem_append.mp mem with within | last
    · exact finite entry within
    · obtain rfl := List.mem_singleton.mp last
      exact own

theorem entriesFinite_extend {later : JsonObject} (finite' : EntriesFinite later) {o : JsonObject} (finite : EntriesFinite o) :
    EntriesFinite (o.extend later) := by
  induction later generalizing o with
  | nil => exact finite
  | cons entry _ ih => exact ih finite'.2 (entriesFinite_insert finite entry.1 finite'.1)

mutual

theorem held_finite (numbers : NumbersFinite number) : ∀ (n : Nat) (w : Value) {v : JsonValue}, held number n w = some v → FloatsFinite v
  | _,.null,_,reads => by
    obtain rfl := some.inj reads
    exact trivial
  | _,.bool _,_,reads => by
    obtain rfl := some.inj reads
    exact trivial
  | _,.number token,_,reads => by
    obtain ⟨n,known,rfl⟩ := map_eq_some_iff.mp reads
    exact numbers token n known
  | _,.string _,_,reads => by
    obtain rfl := some.inj reads
    exact trivial
  | n + 1,.array items,_,reads => by
    obtain ⟨_,known,rfl⟩ := map_eq_some_iff.mp reads
    exact held_items_finite numbers n items known
  | n + 1,.object members,_,reads => by
    obtain ⟨_,known,rfl⟩ := map_eq_some_iff.mp reads
    exact entriesFinite_extend (held_members_finite numbers n members known) trivial

theorem held_items_finite (numbers : NumbersFinite number) : ∀ (n : Nat) (items : List Value) {vs : List JsonValue}, held_items number n items = some vs →
    ItemsFinite vs
  | _,[],_,reads => by
    obtain rfl := some.inj reads
    exact trivial
  | n,item :: rest,_,reads => by
    obtain ⟨v,first,reads⟩ := bind_eq_some_iff.mp reads
    obtain ⟨_,others,reads⟩ := bind_eq_some_iff.mp reads
    obtain rfl := some.inj reads
    exact ⟨held_finite numbers n item first,held_items_finite numbers n rest others⟩

theorem held_members_finite (numbers : NumbersFinite number) : ∀ (n : Nat) (members : List (List Char × Value)) {entries : JsonObject},
    held_members number n members = some entries → EntriesFinite entries
  | _,[],_,reads => by
    obtain rfl := some.inj reads
    exact trivial
  | n,(key,value) :: rest,_,reads => by
    obtain ⟨v,first,reads⟩ := bind_eq_some_iff.mp reads
    obtain ⟨_,others,reads⟩ := bind_eq_some_iff.mp reads
    obtain rfl := some.inj reads
    exact ⟨held_finite numbers n value first,held_members_finite numbers n rest others⟩

end

theorem held_members_keys : ∀ {members : List (List Char × Value)} {entries : JsonObject},
    held_members number n members = some entries → entries.map (·.1) = members.map fun m => ofList m.1
  | [],_,reads => by
    obtain rfl := some.inj reads
    rfl
  | (key,value) :: rest,_,reads => by
    obtain ⟨v,_,reads⟩ := bind_eq_some_iff.mp reads
    obtain ⟨_,others,reads⟩ := bind_eq_some_iff.mp reads
    obtain rfl := some.inj reads
    rw [map_cons,map_cons,held_members_keys others]

theorem held_front {key text : List Char} {members : List (List Char × Value)} (other : ∀ m ∈ members, m.1 ≠ key) (n : Nat)
    (v : JsonValue) : held number n (.object ((key,.string text) :: members)) = some v ↔
      ∃ entries, held number n (.object members) = some (.object entries) ∧
        v = .object ((ofList key,.string (ofList text)) :: entries) := by
  cases n with
  | zero => simp [held]
  | succ n =>
    have first : held_members number n ((key,.string text) :: members) =
        (held_members number n members).map ((ofList key,.string (ofList text)) :: ·) := by
      simp only [held_members,held,bind_eq_bind,bind_some]
      cases held_members number n members <;> rfl
    rw [held,held,first]
    cases others : held_members number n members with
    | none => simp
    | some entries =>
      have apart : ∀ e ∈ entries, ofList key ≠ e.1 := by
        intro e mem same
        have known : ofList key ∈ members.map fun m => ofList m.1 := by
          rw [← held_members_keys others,same]
          exact mem_map_of_mem mem
        obtain ⟨m,listed,spelled⟩ := List.mem_map.mp known
        exact other m listed (ofList_injective spelled)
      have front : extend [] ((ofList key,.string (ofList text)) :: entries) =
          (ofList key,.string (ofList text)) :: extend [] entries :=
        extend_cons apart []
      simp only [map_some,front,some.injEq,JsonValue.object.injEq]
      exact ⟨fun same => ⟨_,rfl,same.symm⟩,by rintro ⟨_,rfl,rfl⟩; rfl⟩

end

/-! ### What was written -/

section
variable {number : List Char → Option JsonNumber} {p : Primitives} {n : Nat}

theorem held_denoted_entries {entries : JsonObject}
    (members : ∀ entry ∈ entries, held number n (denoted p entry.2) = some entry.2) :
    held_members number n (denoted_entries p entries) = some entries := by
  induction entries with
  | nil => rfl
  | cons entry _ ih =>
    obtain ⟨key,value⟩ := entry
    have first := members (key,value) mem_cons_self
    have others := ih fun entry mem => members entry (mem_cons_of_mem _ mem)
    simp only [denoted_entries,held_members,ofList_toList,first,others,bind_eq_bind,bind_some]
    rfl

theorem held_denoted_object {entries : JsonObject} (keyed : JsonObject.Keyed entries)
    (members : ∀ entry ∈ entries, held number n (denoted p entry.2) = some entry.2) :
    held number (n + 1) (denoted p (.object entries)) = some (.object entries) := by
  rw [denoted,held,held_denoted_entries members,map_some,extend_of_keyed (by simpa using keyed)]
  rfl

theorem held_denoted_string (text : String) : held number n (denoted p (.string text)) = some (.string text) := by
  rw [denoted,held,ofList_toList]

theorem SerdeJson.reads_compact {from_str : String → Option JsonValue} {to_string : JsonValue → String} {limit : Nat}
    (serde : SerdeJson from_str to_string p number limit) {v w : JsonValue} (finite : FloatsFinite v)
    (holds : held number limit (denoted p v) = some w) {text : String} (written : text.toList = write_compact p v) :
    from_str text = some w :=
  (serde.reads text w).mpr ⟨denoted p v,written ▸ (compact_denoted serde.floats v finite).text,holds⟩

end

noncomputable def read (number : List Char → Option JsonNumber) (limit : Nat) (text : String) : Option JsonValue :=
  open Classical in if h : ∃ v w, Text text.toList w ∧ held number limit w = some v then some h.choose else none

theorem read_iff (number : List Char → Option JsonNumber) (limit : Nat) (text : String) (v : JsonValue) :
    read number limit text = some v ↔ ∃ w, Text text.toList w ∧ held number limit w = some v := by
  unfold read
  split_ifs with readable
  · obtain ⟨w,spelled,same⟩ := readable.choose_spec
    constructor
    · rintro found
      exact ⟨w,spelled,same.trans found⟩
    · rintro ⟨_,spelled',same'⟩
      obtain rfl := spelled.unique spelled'
      exact same.symm.trans same'
  · exact iff_of_false (by simp) fun ⟨w,spelled,same⟩ => readable ⟨v,w,spelled,same⟩

theorem serdeJson_read {p : Primitives} {number : List Char → Option JsonNumber} (limit : Nat) (numbers : NumbersFinite number)
    (floats : p.WritesFloats) : SerdeJson (read number limit) (fun v => ofList (write_compact p v)) p number limit where
  reads := read_iff number limit
  writes _ := rfl
  numbers := numbers
  floats := floats

end Ferrin
