import Ferrin.Google.SchemaTypes

/-!
What the conversion writes of a schema apart from `anyOf`, and that it says what
the schema says.
-/
namespace Ferrin.Google.JsonSchema
open JsonObject Ferrin.JsonSchema Ferrin.Result Option

/-! ### What is written beside the alternatives -/

section
variable {p : Primitives} {convert : JsonValue → Except Failure (Option JsonValue)} {object : JsonObject}

/-- The result before the alternatives are written. -/
def nested (typed : JsonObject) (properties items all_of : Option JsonValue) : JsonObject :=
  insert_some (insert_some (insert_some typed "properties" properties) "items" items) "allOf" all_of

def closed (object : JsonObject) (one_of : Option JsonValue) (joined : JsonObject) : JsonObject :=
  ["minLength","minItems","maxItems"].foldl (fun result key => insert_some result key (object.get key))
    (insert_some joined "oneOf" one_of)

structure Converts (p : Primitives) (convert : JsonValue → Except Failure (Option JsonValue)) (object : JsonObject)
    (typed : JsonObject) (properties items all_of one_of : Option JsonValue) : Prop where
  typed : insert_enum p object (insert_type (object.get "type") (started object)) = .ok typed
  properties : convert_properties convert (object.get "properties") = .ok properties
  items : convert_items convert (object.get "items") = .ok items
  all_of : convert_list convert (object.get "allOf") = .ok all_of
  one_of : convert_list convert (object.get "oneOf") = .ok one_of

theorem convert_object_ok {result : JsonObject} (done : convert_object p convert object = .ok result) :
    ∃ typed properties items all_of one_of joined, Converts p convert object typed properties items all_of one_of ∧
      insert_any_of convert (object.get "anyOf") (nested typed properties items all_of) = .ok joined ∧
      result = closed object one_of joined := by
  unfold convert_object at done
  obtain ⟨typed,typed_ok,done⟩ := bind_ok.mp done
  obtain ⟨properties,properties_ok,done⟩ := bind_ok.mp done
  obtain ⟨items,items_ok,done⟩ := bind_ok.mp done
  obtain ⟨all_of,all_of_ok,done⟩ := bind_ok.mp done
  obtain ⟨joined,joined_ok,done⟩ := bind_ok.mp done
  obtain ⟨one_of,one_of_ok,done⟩ := bind_ok.mp done
  exact ⟨typed,properties,items,all_of,one_of,joined,⟨typed_ok,properties_ok,items_ok,all_of_ok,one_of_ok⟩,joined_ok,
    (Except.ok.inj done).symm⟩

/-- What is written after the alternatives. -/
def late (object : JsonObject) (one_of : Option JsonValue) (keyword : String) : Option JsonValue :=
  if keyword ∈ ["minLength","minItems","maxItems"] then object.get keyword
  else if keyword = "oneOf" then one_of
  else none

def middle (properties items all_of : Option JsonValue) (keyword : String) : Option JsonValue :=
  if keyword = "properties" then properties
  else if keyword = "items" then items
  else if keyword = "allOf" then all_of
  else none

theorem get_closed (one_of : Option JsonValue) (joined : JsonObject) (keyword : String) :
    get (closed object one_of joined) keyword = (late object one_of keyword).or (get joined keyword) := by
  simp only [closed,List.foldl_cons,List.foldl_nil,get_insert_some,late,List.mem_cons,List.not_mem_nil,or_false]
  by_cases length : keyword = "minLength"
  · subst length
    simp
  by_cases least : keyword = "minItems"
  · subst least
    simp
  by_cases most : keyword = "maxItems"
  · subst most
    simp
  by_cases one : keyword = "oneOf"
  · subst one
    simp
  · simp [length,least,most,one]

theorem get_nested (typed : JsonObject) (properties items all_of : Option JsonValue) (keyword : String) :
    get (nested typed properties items all_of) keyword =
      (middle properties items all_of keyword).or (get typed keyword) := by
  simp only [nested,get_insert_some,middle]
  by_cases all : keyword = "allOf"
  · subst all
    simp
  by_cases item : keyword = "items"
  · subst item
    simp
  by_cases property : keyword = "properties"
  · subst property
    simp
  · simp [all,item,property]

/-- What a conversion without alternatives would write. -/
def ownGet (object typed : JsonObject) (properties items all_of one_of : Option JsonValue) (keyword : String) :
    Option JsonValue :=
  (late object one_of keyword).or ((middle properties items all_of keyword).or (get typed keyword))

def Meets (valid : JsonValue → JsonValue → Bool) (lookup : String → Option JsonValue) (i : JsonValue) : Prop :=
  ∀ keyword ∈ assertions, (lookup keyword).all (keywordMet valid keyword · i) = true

theorem met_iff (valid : JsonValue → JsonValue → Bool) (schema : JsonObject) (i : JsonValue) :
    met valid schema i = true ↔ Meets valid (get schema) i := List.all_eq_true

def Faithful (resolve : String → Option JsonValue) (convert : JsonValue → Except Failure (Option JsonValue))
    (schemas : List JsonValue) : Prop :=
  ∀ schema ∈ schemas, ∀ converted, convert schema = .ok converted →
    ∃ own, converted = some (.object own) ∧ Same resolve (.object own) schema

variable {resolve : String → Option JsonValue}

theorem Faithful.all {schemas converted : List JsonValue} (faithful : Faithful resolve convert schemas)
    (done : convert_all convert schemas = .ok converted) : List.Forall₂ (Same resolve) converted schemas := by
  induction schemas generalizing converted with
  | nil =>
    cases done
    exact .nil
  | cons schema _ ih =>
    rw [convert_all,List.mapM_cons] at done
    obtain ⟨_,first_ok,done⟩ := bind_ok.mp done
    obtain ⟨_,others_ok,done⟩ := bind_ok.mp done
    cases done
    obtain ⟨own,own_ok,rfl⟩ := map_ok.mp first_ok
    obtain ⟨_,rfl,same⟩ := faithful schema List.mem_cons_self own own_ok
    exact .cons same (ih (fun other mem => faithful other (List.mem_cons_of_mem _ mem)) others_ok)

theorem Faithful.list {value converted : Option JsonValue} (faithful : Faithful resolve convert (listed value))
    (arrays : ∀ own, value = some own → ∃ schemas, own = .array schemas) (done : convert_list convert value = .ok converted)
    (decides : List Bool → Bool) :
    ∃ depth, ∀ n m, depth ≤ n → depth ≤ m → ∀ i,
      converted.all (alternativesMet (validates resolve n) decides · i) =
        value.all (alternativesMet (validates resolve m) decides · i) := by
  cases value with
  | none =>
    cases done
    exact ⟨0,fun _ _ _ _ _ => rfl⟩
  | some own =>
    obtain ⟨_,rfl⟩ := arrays own rfl
    obtain ⟨_,list_ok,rfl⟩ := map_ok.mp done
    obtain ⟨depth,same⟩ := same_lists (faithful.all list_ok)
    exact ⟨depth,fun n m le le' i => congrArg decides (same n m le le' i)⟩

theorem Faithful.entries {entries before converted : JsonObject} (keyed : Keyed entries)
    (faithful : Faithful resolve convert (entries.map (·.2))) (apart : ∀ entry ∈ entries, before.lookup entry.1 = none)
    (done : convert_entries convert entries before = .ok converted) :
    ∃ list, converted = before ++ list ∧ List.Forall₂ (fun a b => a.1 = b.1 ∧ Same resolve a.2 b.2) list entries := by
  induction entries generalizing before with
  | nil =>
    cases done
    exact ⟨[],(List.append_nil _).symm,.nil⟩
  | cons entry _ ih =>
    obtain ⟨distinct,keyed⟩ := List.nodup_cons.mp keyed
    obtain ⟨own,own_ok,done⟩ := bind_ok.mp done
    obtain ⟨value,rfl,same⟩ := faithful entry.2 List.mem_cons_self own own_ok
    rw [insert_some,elim_some,insert_of_absent (apart entry List.mem_cons_self)] at done
    obtain ⟨list,rfl,alike⟩ := ih keyed (fun other mem => faithful other (List.mem_cons_of_mem _ mem))
      (fun other mem => by
        rw [lookup_append_entry _ (apart entry List.mem_cons_self),if_neg]
        · exact apart other (List.mem_cons_of_mem _ mem)
        · intro clash
          exact distinct (List.mem_map.mpr ⟨other,mem,clash⟩)) done
    exact ⟨(entry.1,.object value) :: list,by simp,.cons ⟨rfl,same⟩ alike⟩

theorem Faithful.properties {value converted : Option JsonValue} (faithful : Faithful resolve convert (propertySchemas value))
    (objects : ∀ own, value = some own → ∃ entries, Keyed entries ∧ own = .object entries)
    (done : convert_properties convert value = .ok converted) :
    ∃ depth, ∀ n m, depth ≤ n → depth ≤ m → ∀ i,
      converted.all (propertiesMet (validates resolve n) · i) = value.all (propertiesMet (validates resolve m) · i) := by
  cases value with
  | none =>
    cases done
    exact ⟨0,fun _ _ _ _ _ => rfl⟩
  | some own =>
    obtain ⟨entries,keyed,rfl⟩ := objects own rfl
    obtain ⟨list,list_ok,rfl⟩ := map_ok.mp done
    obtain ⟨_,rfl,alike⟩ := faithful.entries keyed (fun _ _ => rfl) list_ok
    obtain ⟨depth,same⟩ := same_members alike
    exact ⟨depth,same⟩

theorem Faithful.items {value converted : Option JsonValue} (faithful : Faithful resolve convert value.toList)
    (single : ∀ own, value = some own → (∃ accepts, own = .bool accepts) ∨ ∃ object, own = .object object)
    (done : convert_items convert value = .ok converted) :
    ∃ depth, ∀ n m, depth ≤ n → depth ≤ m → ∀ i,
      converted.all (itemsMet (validates resolve n) · i) = value.all (itemsMet (validates resolve m) · i) := by
  cases value with
  | none =>
    cases done
    exact ⟨0,fun _ _ _ _ _ => rfl⟩
  | some own =>
    have done : convert own = .ok converted := by
      rcases single own rfl with ⟨accepts,rfl⟩ | ⟨object,rfl⟩
      · exact done
      · exact done
    obtain ⟨object,rfl,depth,same⟩ := faithful own (by simp) converted done
    refine ⟨depth,fun n m le le' i => ?_⟩
    cases i with
    | array values =>
      have alike : validates resolve n (.object object) = validates resolve m own := funext (same n m le le')
      rcases single own rfl with ⟨accepts,rfl⟩ | ⟨original,rfl⟩
      · exact congrArg values.all alike
      · exact congrArg values.all alike
    | _ => rcases single own rfl with ⟨_,rfl⟩ | ⟨_,rfl⟩ <;> rfl

theorem hasType_null (i : JsonValue) : hasType "null" i = true ↔ i = .null := by
  cases i <;> simp [hasType]

theorem validates_typeSchema (n : Nat) (name : String) (i : JsonValue) :
    validates resolve (n + 1) (typeSchema (.string name)) i = hasType name i := by
  simp [validates,typeSchema,JsonObject.get,List.lookup_cons,isNullable,met,assertions,keywordHolds,keywordMet,typeMet]

theorem types_met (shaped : Shaped object) (lists : listsTypes object = true) {n : Nat} (le : 1 ≤ n)
    (valid : JsonValue → JsonValue → Bool) {i : JsonValue} (plain : i = .null → listsNull (object.get "type") = false) :
    alternativesMet (validates resolve n) (·.any id) (.array ((nonNull (object.get "type")).map typeSchema)) i =
      keywordHolds valid object i "type" := by
  obtain ⟨n,rfl⟩ := Nat.exists_eq_add_of_le' le
  unfold keywordHolds
  cases ty : object.get "type" with
  | none => simp [listsTypes,ty,nonNull] at lists
  | some value =>
    rcases shaped.types value ty with ⟨name,rfl,-⟩ | ⟨names,-,rfl⟩
    · simp [listsTypes,ty,nonNull] at lists
    · change List.any (List.map _ (List.map typeSchema (nonNull (some (strings names))))) id = typeMet (strings names) i
      rw [typeMet_strings,List.map_map,List.any_map,Bool.eq_iff_iff,List.any_eq_true,List.any_eq_true]
      constructor
      · rintro ⟨_,mem,holds⟩
        obtain ⟨name,held,rfl⟩ := List.mem_map.mp (List.mem_of_mem_filter mem)
        exact ⟨name,held,(validates_typeSchema n name i).symm.trans holds⟩
      · rintro ⟨name,held,holds⟩
        refine ⟨.string name,mem_nonNull held ?_,(validates_typeSchema n name i).trans holds⟩
        rintro rfl
        have none_ := plain ((hasType_null i).mp holds)
        rw [ty] at none_
        have null : listsNull (some (strings names)) = true := List.any_eq_true.mpr ⟨_,List.mem_map_of_mem held,by decide⟩
        rw [null] at none_
        cases none_

variable {typed : JsonObject} {properties items all_of one_of : Option JsonValue}

theorem get_typed_none (known : Typed object typed) {keyword : String}
    (other : keyword ∉ ["type","enum","anyOf","nullable","description","required","format"]) : get typed keyword = none := by
  simp only [List.mem_cons,List.not_mem_nil,or_false,not_or] at other
  rw [known.others keyword (by simp [other]),get_started (by simp [other])]

theorem ownGet_plain (shaped : Shaped object) (known : Typed object typed) {keyword : String}
    (plain : keyword ∈ ["required","minLength","minItems","maxItems"]) :
    ownGet object typed properties items all_of one_of keyword = get object keyword := by
  simp only [List.mem_cons,List.not_mem_nil,or_false] at plain
  rcases plain with rfl | rfl | rfl | rfl
  · change get typed "required" = _
    rw [known.others _ (by decide),started,get_insert_some,if_neg (by decide),get_insert_some,if_pos rfl,get_insert_some,
      if_neg (by decide)]
    change ((get object "required").filter (· ≠ .null)).or none = _
    cases held : get object "required" with
    | none => rfl
    | some value =>
      obtain ⟨_,rfl⟩ := shaped.required value held
      rfl
  all_goals
    change (get object _).or (get typed _) = _
    rw [get_typed_none known (by decide),or_none]

theorem typed_types (resolve : String → Option JsonValue) (valid : JsonValue → JsonValue → Bool) (shaped : Shaped object) (known : Typed object typed) {n : Nat}
    (le : 1 ≤ n) {i : JsonValue} (plain : i = .null → get typed "nullable" = none) :
    ((get typed "type").all (typeMet · i) && (get typed "enum").all (enumMet · i) &&
      (get typed "anyOf").all (alternativesMet (validates resolve n) (·.any id) · i)) =
      (keywordHolds valid object i "type" && keywordHolds valid object i "enum") := by
  have meaning := known.meaning valid i
  change ((get typed "type").all (typeMet · i) && (get typed "enum").all (enumMet · i)) = _ at meaning
  rw [meaning,known.alternatives]
  cases lists : listsTypes object with
  | false => simp
  | true =>
    have shape : nonNull (object.get "type") ≠ [] ∧ object.get "enum" = none := by
      simpa [listsTypes,and_comm] using lists
    have null (same : i = .null) : listsNull (object.get "type") = false := by
      by_contra list
      have becomes := known.becomes (by simpa using list) shape.1
      rw [plain same] at becomes
      cases becomes
    have no_enum : keywordHolds valid object i "enum" = true := by rw [keywordHolds,shape.2]; rfl
    rw [no_enum,Bool.and_true,Bool.true_or,Bool.true_and,if_pos rfl,all_some]
    exact types_met shaped lists le _ null

/-- Apart from `anyOf`, what a conversion writes for an object says what the object says, but for null. -/
theorem own_meets (shaped : Shaped object) (converts : Converts p convert object typed properties items all_of one_of)
    (faithful : Faithful resolve convert (parts object))
    (single : ∀ value, object.get "items" = some value → (∃ accepts, value = .bool accepts) ∨ ∃ own, value = .object own) :
    ∃ depth, ∀ n m, depth ≤ n → depth ≤ m → ∀ i, (i = .null → get typed "nullable" = none) →
      (Meets (validates resolve n) (ownGet object typed properties items all_of one_of) i ↔
        ∀ keyword ∈ assertions, keyword ≠ "anyOf" → keywordHolds (validates resolve m) object i keyword = true) := by
  have known := typed_ok shaped converts.typed
  have within (schemas : List JsonValue) (sub : ∀ schema ∈ schemas, schema ∈ parts object) :
      Faithful resolve convert schemas := fun schema mem => faithful schema (sub schema mem)
  obtain ⟨d₁,property_same⟩ := (within (propertySchemas (object.get "properties")) fun schema mem => by
    simp [parts,mem]).properties (fun own held => by simpa using shaped.properties own held) converts.properties
  obtain ⟨d₂,item_same⟩ := (within (object.get "items").toList fun schema mem => by
    have item : schema ∈ itemSchemas (object.get "items") := by
      have held := Option.mem_toList.mp mem
      rw [held]
      rcases single schema held with ⟨_,rfl⟩ | ⟨_,rfl⟩ <;> exact List.mem_cons_self
    simp [parts,item]).items single converts.items
  obtain ⟨d₃,all_same⟩ := (within (listed (object.get "allOf")) fun schema mem => by
    simp [parts,mem]).list (shaped.alternatives "allOf" (by decide)) converts.all_of (·.all id)
  obtain ⟨d₄,one_same⟩ := (within (listed (object.get "oneOf")) fun schema mem => by
    simp [parts,mem]).list (shaped.alternatives "oneOf" (by decide)) converts.one_of (fun held => held.count true = 1)
  refine ⟨d₁ + d₂ + d₃ + d₄ + 1,fun n m le le' i plain => ?_⟩
  have property_same := property_same n m (by omega) (by omega) i
  have item_same := item_same n m (by omega) (by omega) i
  have all_same := all_same n m (by omega) (by omega) i
  have one_same := one_same n m (by omega) (by omega) i
  have types := typed_types resolve (validates resolve m) shaped known (Nat.le_trans (Nat.le_add_left _ _) le) plain
  have absent {keyword : String} (other : keyword ∈ ["properties","items","allOf","oneOf"]) : get typed keyword = none := by
    simp only [List.mem_cons,List.not_mem_nil,or_false] at other
    exact get_typed_none known (by rcases other with rfl | rfl | rfl | rfl <;> decide)
  set written := ownGet object typed properties items all_of one_of with written_eq
  have plainly (keyword : String) (mem : keyword ∈ ["required","minLength","minItems","maxItems"]) :
      (written keyword).all (keywordMet (validates resolve n) keyword · i) =
        keywordHolds (validates resolve m) object i keyword := by
    rw [written_eq,ownGet_plain shaped known mem]
    simp only [List.mem_cons,List.not_mem_nil,or_false] at mem
    rcases mem with rfl | rfl | rfl | rfl <;> rfl
  have property : written "properties" = properties := by
    change properties.or (get typed "properties") = _
    rw [absent (by decide),or_none]
  have item : written "items" = items := by
    change items.or (get typed "items") = _
    rw [absent (by decide),or_none]
  have every : written "allOf" = all_of := by
    change all_of.or (get typed "allOf") = _
    rw [absent (by decide),or_none]
  have one : written "oneOf" = one_of := by
    change one_of.or (get typed "oneOf") = _
    rw [absent (by decide),or_none]
  rw [← property] at property_same
  rw [← item] at item_same
  rw [← every] at all_same
  rw [← one] at one_same
  have group : (written "type").all (keywordMet (validates resolve n) "type" · i) = true ∧
      (written "enum").all (keywordMet (validates resolve n) "enum" · i) = true ∧
      (written "anyOf").all (keywordMet (validates resolve n) "anyOf" · i) = true ↔
      keywordHolds (validates resolve m) object i "type" = true ∧
        keywordHolds (validates resolve m) object i "enum" = true := by
    rw [← and_assoc,← Bool.and_eq_true,← Bool.and_eq_true,← Bool.and_eq_true,← types]
    rfl
  have same : ∀ keyword ∈ assertions, keyword ∉ ["type","enum","anyOf"] →
      (written keyword).all (keywordMet (validates resolve n) keyword · i) =
        keywordHolds (validates resolve m) object i keyword := by
    intro keyword mem other
    simp only [assertions,List.mem_cons,List.not_mem_nil,or_false] at mem
    rcases mem with rfl | rfl | rfl | rfl | rfl | rfl | rfl | rfl | rfl | rfl | rfl
    · exact absurd (by decide) other
    · exact absurd (by decide) other
    · exact plainly _ (by decide)
    · exact property_same
    · exact item_same
    · exact all_same
    · exact absurd (by decide) other
    · exact one_same
    · exact plainly _ (by decide)
    · exact plainly _ (by decide)
    · exact plainly _ (by decide)
  constructor
  · intro meets keyword mem other
    have typed_holds := group.mp ⟨meets _ (by decide),meets _ (by decide),meets _ (by decide)⟩
    by_cases first : keyword = "type"
    · exact first ▸ typed_holds.1
    by_cases second : keyword = "enum"
    · exact second ▸ typed_holds.2
    rw [← same keyword mem (by simp [first,second,other])]
    exact meets keyword mem
  · intro holds keyword mem
    have typed_meets := group.mpr ⟨holds _ (by decide) (by decide),holds _ (by decide) (by decide)⟩
    by_cases first : keyword = "type"
    · exact first ▸ typed_meets.1
    by_cases second : keyword = "enum"
    · exact second ▸ typed_meets.2.1
    by_cases third : keyword = "anyOf"
    · exact third ▸ typed_meets.2.2
    rw [same keyword mem (by simp [first,second,third])]
    exact holds keyword mem third

theorem own_of_written (shaped : Shaped object) (converts : Converts p convert object typed properties items all_of one_of)
    {keyword : String} (mem : keyword ∈ assertions)
    (written : (ownGet object typed properties items all_of one_of keyword).isSome = true) : keyword ∈ own object := by
  have known := typed_ok shaped converts.typed
  have held (some_ : (object.get keyword).isSome = true) (other : keyword ≠ "type" ∧ keyword ≠ "anyOf") :
      keyword ∈ own object :=
    List.mem_append_left _ (List.mem_filter.mpr ⟨mem,by simp [other,some_]⟩)
  have absent (other : keyword ∈ ["properties","items","allOf","oneOf"]) : get typed keyword = none := by
    simp only [List.mem_cons,List.not_mem_nil,or_false] at other
    exact get_typed_none known (by rcases other with rfl | rfl | rfl | rfl <;> decide)
  have plainly (plain : keyword ∈ ["required","minLength","minItems","maxItems"]) : keyword ∈ own object := by
    refine held (by rwa [ownGet_plain shaped known plain] at written) ?_
    constructor <;> rintro rfl <;> exact absurd plain (by decide)
  simp only [assertions,List.mem_cons,List.not_mem_nil,or_false] at mem
  rcases mem with rfl | rfl | rfl | rfl | rfl | rfl | rfl | rfl | rfl | rfl | rfl
  · have facts := known.named written
    refine List.mem_append_right _ ?_
    rw [if_neg (by simp [facts.1]),if_pos facts.2]
    exact List.mem_cons_self
  · exact held (known.members written) (by decide)
  · exact plainly (by decide)
  · refine held ?_ (by decide)
    change (properties.or (get typed "properties")).isSome = true at written
    rw [absent (by decide),or_none] at written
    by_contra none_
    have done := converts.properties
    rw [Option.not_isSome_iff_eq_none.mp none_] at done
    cases done
    cases written
  · refine held ?_ (by decide)
    change (items.or (get typed "items")).isSome = true at written
    rw [absent (by decide),or_none] at written
    by_contra none_
    have done := converts.items
    rw [Option.not_isSome_iff_eq_none.mp none_] at done
    cases done
    cases written
  · refine held ?_ (by decide)
    change (all_of.or (get typed "allOf")).isSome = true at written
    rw [absent (by decide),or_none] at written
    by_contra none_
    have done := converts.all_of
    rw [Option.not_isSome_iff_eq_none.mp none_] at done
    cases done
    cases written
  · refine List.mem_append_right _ ?_
    change (get typed "anyOf").isSome = true at written
    rw [known.alternatives] at written
    split_ifs at written with lists
    · rw [if_pos lists]
      exact List.mem_cons_self
    · cases written
  · refine held ?_ (by decide)
    change (one_of.or (get typed "oneOf")).isSome = true at written
    rw [absent (by decide),or_none] at written
    by_contra none_
    have done := converts.one_of
    rw [Option.not_isSome_iff_eq_none.mp none_] at done
    cases done
    cases written
  · exact plainly (by decide)
  · exact plainly (by decide)
  · exact plainly (by decide)

end

end Ferrin.Google.JsonSchema
