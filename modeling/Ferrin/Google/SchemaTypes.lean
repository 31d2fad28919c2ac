import Ferrin.Google.SchemaDomain

/-!
What the conversion writes for the types and the enumeration of a schema.
-/
namespace Ferrin.Google.JsonSchema
open JsonObject Ferrin.JsonSchema Ferrin.Result List
open JsonValue (as_str string)

/-! ### The type and the enumeration -/

section
variable {p : Primitives} {object before typed : JsonObject}

theorem texts_of_strings (texts : List String) : (texts.map string).filter (· ≠ .null) = texts.map .string := by
  rw [filter_eq_self]
  intro value mem
  obtain ⟨_,-,rfl⟩ := List.mem_map.mp mem
  simp

variable {texts names : List String} {ty : Option JsonValue} {keyword : String}

theorem add_enum_texts (done : add_enum_to_schema p (texts.map .string) ty before = .ok typed) :
    type_allows ty "string" = true ∧ typed =
      let named := insert before "type" (.string "string")
      let named := if isList ty then swap_remove named "anyOf" else named
      insert (if listsNull ty then insert named "nullable" (.bool true) else named) "enum" (strings texts) := by
  have texts_null : (texts.map string).any (· = .null) = false := by simp
  unfold add_enum_to_schema at done
  dsimp only at done
  rw [texts_null,Bool.and_false,Bool.or_false,texts_of_strings,ite_self] at done
  rw [if_neg (by cases texts <;> simp)] at done
  by_cases allowed : type_allows ty "string" = true
  · refine ⟨allowed,?_⟩
    by_cases none_ : texts = []
    · subst none_
      cases done
    · have text : enum_type (texts.map .string) ty = some "string" := by
        rw [enum_type,if_neg (by simpa using none_),if_pos]
        simp [allowed,isString,as_str]
      rw [text] at done
      exact (Except.ok.inj done).symm
  · have unsupported : enum_type (texts.map .string) ty = none := by
      rw [Bool.not_eq_true] at allowed
      cases texts with
      | nil => rfl
      | cons => simp [enum_type,allowed,isFiniteNumber,isBoolean]
    rw [unsupported] at done
    cases done

/-- The result before its types are written. -/
def started (object : JsonObject) : JsonObject :=
  insert_some
    (insert_some (insert_some [] "description" (non_empty_string (object.get "description"))) "required"
      ((object.get "required").filter (· ≠ .null)))
    "format" (non_empty_string (object.get "format"))

theorem keyed_started (object : JsonObject) : Keyed (started object) :=
  ((Keyed.nil.insert_some _ _).insert_some _ _).insert_some _ _

theorem get_started {object : JsonObject} (plain : keyword ∉ ["description","required","format"]) :
    get (started object) keyword = none := by
  simp only [mem_cons,not_mem_nil,or_false,not_or] at plain
  rw [started,get_insert_some,if_neg plain.2.2,get_insert_some,if_neg plain.2.1,get_insert_some,if_neg plain.1]
  rfl

def typeSchema (value : JsonValue) : JsonValue := .object [("type",value)]

/-- What is known after the types and the enumeration were written. -/
structure Typed (object typed : JsonObject) : Prop where
  keyed : Keyed typed
  others : ∀ keyword ∉ ["type","enum","anyOf","nullable"], get typed keyword = get (started object) keyword
  nullable : (get typed "nullable").isSome = true →
    listsNull (object.get "type") = true ∧ nonNull (object.get "type") ≠ []
  becomes : listsNull (object.get "type") = true → nonNull (object.get "type") ≠ [] →
    get typed "nullable" = some (.bool true)
  alternatives : get typed "anyOf" =
    if listsTypes object then some (.array ((nonNull (object.get "type")).map typeSchema)) else none
  named : (get typed "type").isSome = true →
    listsTypes object = false ∧ ((object.get "type").isSome || (object.get "enum").isSome) = true
  members : (get typed "enum").isSome = true → (object.get "enum").isSome = true
  meaning : ∀ valid i, (keywordHolds valid typed i "type" && keywordHolds valid typed i "enum") =
    (listsTypes object || (keywordHolds valid object i "type" && keywordHolds valid object i "enum"))

theorem get_of_no_key (absent : ∀ entry ∈ object, entry.1 ≠ keyword) : get object keyword = none := by
  rw [Option.eq_none_iff_forall_not_mem]
  intro value held
  exact absent _ (Assoc.mem_of_lookup held) rfl

theorem Shaped.absent (shaped : Shaped object) (other : keyword ∉ assertions ++ annotations) :
    get object keyword = none := by
  refine get_of_no_key fun entry mem same => other ?_
  rw [← same]
  exact List.mem_append.mpr (shaped.keywords entry mem)

theorem holds_strings (valid : JsonValue → JsonValue → Bool)
    (members : get object "enum" = some (strings texts)) (i : JsonValue) :
    keywordHolds valid object i "enum" = decide (i ∈ texts.map string) := by
  rw [keywordHolds,members]
  rfl

theorem holds_of_allows (valid : JsonValue → JsonValue → Bool) (shaped : Shaped object)
    (allowed : type_allows (object.get "type") "string" = true) (text : String) :
    keywordHolds valid object (.string text) "type" = true := by
  unfold keywordHolds
  cases ty : object.get "type" with
  | none => rfl
  | some value =>
    rw [ty] at allowed
    rcases shaped.types value ty with ⟨_,rfl,-⟩ | ⟨_,-,rfl⟩
    · simpa [keywordMet,typeMet,hasType,type_allows] using allowed
    · simpa [keywordMet,typeMet,hasType,type_allows,strings,as_str] using allowed

theorem keyed_insert_type (ty : Option JsonValue) (keyed : Keyed before) : Keyed (insert_type ty before) := by
  unfold insert_type
  split
  · dsimp only
    split_ifs
    · exact keyed.insert _ _
    · exact (keyed.insert _ _).insert _ _
    · exact keyed.insert _ _
  · split_ifs
    · exact keyed.insert _ _
    · exact keyed
  · exact keyed

theorem get_insert_type (ty : Option JsonValue) (other : keyword ∉ ["type","anyOf","nullable"]) :
    get (insert_type ty before) keyword = get before keyword := by
  simp only [mem_cons,not_mem_nil,or_false,not_or] at other
  unfold insert_type
  split
  · dsimp only
    split_ifs
    · rw [get_insert,if_neg other.1]
    · rw [get_insert,if_neg other.2.2,get_insert,if_neg other.2.1]
    · rw [get_insert,if_neg other.2.1]
  · split_ifs
    · rw [get_insert,if_neg other.1]
    · rfl
  · rfl

theorem type_insert_type (types : List JsonValue) :
    get (insert_type (some (.array types)) before) "type" =
      if nonNull (some (.array types)) = [] then some (.string "null") else get before "type" := by
  change get (if nonNull (some (.array types)) = [] then _ else _) "type" = _
  split_ifs
  · rw [get_insert,if_pos rfl]
  · rw [get_insert,if_neg (by decide),get_insert,if_neg (by decide)]
  · rw [get_insert,if_neg (by decide)]

theorem nullable_insert_type (ty : Option JsonValue) (absent : get before "nullable" = none) :
    get (insert_type ty before) "nullable" =
      if nonNull ty = [] then none else if listsNull ty then some (.bool true) else none := by
  match ty with
  | some (.array types) =>
    change get (if nonNull (some (.array types)) = [] then _ else _) "nullable" = _
    split_ifs
    · rw [get_insert,if_neg (by decide),absent]
    · rw [get_insert,if_pos rfl]
    · rw [get_insert,if_neg (by decide),absent]
  | some (.string name) =>
    have plain : nonNull (some (.string name)) = [] := rfl
    rw [if_pos plain]
    change get (if name ≠ "" then _ else _) "nullable" = _
    split_ifs
    · rw [get_insert,if_neg (by decide),absent]
    · exact absent
  | none | some .null | some (.bool _) | some (.number _) | some (.object _) => exact absent

theorem anyOf_insert_type (ty : Option JsonValue) (absent : get before "anyOf" = none) :
    get (insert_type ty before) "anyOf" =
      if nonNull ty = [] then none else some (.array ((nonNull ty).map typeSchema)) := by
  match ty with
  | some (.array types) =>
    change get (if nonNull (some (.array types)) = [] then _ else _) "anyOf" = _
    split_ifs
    · rw [get_insert,if_neg (by decide),absent]
    · rw [get_insert,if_neg (by decide),get_insert,if_pos rfl]
      rfl
    · rw [get_insert,if_pos rfl]
      rfl
  | some (.string name) =>
    have plain : nonNull (some (.string name)) = [] := rfl
    rw [if_pos plain]
    change get (if name ≠ "" then _ else _) "anyOf" = _
    split_ifs
    · rw [get_insert,if_neg (by decide),absent]
    · exact absent
  | none | some .null | some (.bool _) | some (.number _) | some (.object _) => exact absent

theorem nonNull_single (single : ¬ isList ty = true) : nonNull ty = [] := by
  match ty with
  | some (.array types) => exact absurd rfl single
  | none | some .null | some (.bool _) | some (.number _) | some (.string _) | some (.object _) => rfl

theorem typed_of_enum (shaped : Shaped object) (members : object.get "enum" = some (strings texts))
    (done : insert_enum p object (insert_type (object.get "type") (started object)) = .ok typed) : Typed object typed := by
  have values : enumValues object = some (texts.map .string) := by rw [enumValues,members]; rfl
  rw [insert_enum,values] at done
  obtain ⟨allowed,same⟩ := add_enum_texts done
  dsimp only at same
  have lists : listsTypes object = false := by simp [listsTypes,members]
  have keyed := keyed_insert_type (object.get "type") (keyed_started object)
  have nulls : listsNull (object.get "type") = true → nonNull (object.get "type") ≠ [] := by
    intro list empty
    cases ty : object.get "type" with
    | none =>
      rw [ty] at list
      cases list
    | some value =>
      rw [ty] at list empty allowed
      rcases shaped.types value ty with ⟨_,rfl,-⟩ | ⟨names,-,rfl⟩
      · cases list
      · obtain ⟨mem,held,text⟩ := List.any_eq_true.mp allowed
        have kept : mem ∈ nonNull (some (strings names)) := List.mem_filter.mpr ⟨held,by
          rw [of_decide_eq_true text]
          decide⟩
        rw [empty] at kept
        cases kept
  have no_text {keyword : String} (plain : keyword ∉ ["description","required","format"]) :
      get (started object) keyword = none := get_started plain
  set ty := object.get "type" with ty_eq
  set named := insert (insert_type ty (started object)) "type" (.string "string") with named_eq
  have keyed_named : Keyed named := keyed.insert _ _
  set kept := if isList ty then swap_remove named "anyOf" else named with kept_eq
  have keyed_kept : Keyed kept := by
    rw [kept_eq]
    split_ifs
    · exact keyed_named.swap_remove _
    · exact keyed_named
  have get_kept {keyword : String} (other : keyword ≠ "anyOf") : get kept keyword = get named keyword := by
    rw [kept_eq]
    split_ifs
    · rw [get_swap_remove keyed_named,if_neg other]
    · rfl
  have get_typed {keyword : String} (enum : keyword ≠ "enum") (nullable : keyword ≠ "nullable") :
      get typed keyword = get kept keyword := by
    rw [same,get_insert,if_neg enum]
    split_ifs
    · rw [get_insert,if_neg nullable]
    · rfl
  have nullable_kept : get kept "nullable" = if nonNull ty = [] then none else if listsNull ty then some (.bool true) else none := by
    rw [get_kept (by decide),named_eq,get_insert,if_neg (by decide),nullable_insert_type _ (no_text (by decide))]
  have nullable_typed : get typed "nullable" = if listsNull ty then some (.bool true) else none := by
    rw [same,get_insert,if_neg (by decide)]
    split_ifs with list
    · rw [get_insert,if_pos rfl]
    · rw [nullable_kept,if_neg list,ite_self]
  have anyOf_kept : get kept "anyOf" = none := by
    rw [kept_eq]
    split_ifs with list
    · rw [get_swap_remove keyed_named,if_pos rfl]
    · rw [named_eq,get_insert,if_neg (by decide),anyOf_insert_type _ (no_text (by decide)),if_pos (nonNull_single list)]
  have type_typed : get typed "type" = some (.string "string") := by
    rw [get_typed (by decide) (by decide),get_kept (by decide),named_eq,get_insert,if_pos rfl]
  have enum_typed : get typed "enum" = some (strings texts) := by rw [same,get_insert,if_pos rfl]
  refine ⟨?_,?_,?_,?_,?_,?_,?_,?_⟩
  · rw [same]
    split_ifs
    · exact (keyed_kept.insert _ _).insert _ _
    · exact keyed_kept.insert _ _
  · intro keyword other
    simp only [mem_cons,not_mem_nil,or_false,not_or] at other
    rw [get_typed other.2.1 other.2.2.2,get_kept other.2.2.1,named_eq,get_insert,if_neg other.1,get_insert_type]
    simp [other]
  · intro some_
    rw [nullable_typed] at some_
    split_ifs at some_ with list
    · exact ⟨list,nulls list⟩
    · cases some_
  · intro list _
    rw [nullable_typed,if_pos list]
  · rw [get_typed (by decide) (by decide),anyOf_kept,lists]
    rfl
  · exact fun _ => ⟨lists,by rw [members]; simp⟩
  · exact fun _ => by rw [members]; rfl
  · intro valid i
    rw [lists,Bool.false_or,holds_strings valid enum_typed,holds_strings valid members]
    by_cases text : i ∈ texts.map string
    · obtain ⟨t,-,rfl⟩ := List.mem_map.mp text
      rw [holds_of_allows valid shaped allowed]
      congr 1
      rw [keywordHolds,type_typed]
      rfl
    · rw [decide_eq_false text,Bool.and_false,Bool.and_false]

theorem typeMet_strings (names : List String) (i : JsonValue) : typeMet (strings names) i = names.any (hasType · i) := by
  change (names.map string).any _ = _
  rw [any_map]
  rfl

theorem mem_nonNull {name : String} (mem : name ∈ names) (other : name ≠ "null") :
    string name ∈ nonNull (some (strings names)) :=
  List.mem_filter.mpr ⟨mem_map_of_mem mem,by simpa [as_str] using other⟩

theorem typeMet_nulls (some_ : names ≠ []) (nulls : nonNull (some (strings names)) = [])
    (i : JsonValue) : typeMet (strings names) i = hasType "null" i := by
  have each (name : String) (mem : name ∈ names) : name = "null" := by
    by_contra other
    have kept := mem_nonNull mem other
    rw [nulls] at kept
    cases kept
  obtain ⟨first,_,rfl⟩ := exists_cons_of_ne_nil some_
  rw [typeMet_strings,Bool.eq_iff_iff,any_eq_true]
  constructor
  · rintro ⟨name,mem,holds⟩
    rwa [each name mem] at holds
  · intro holds
    exact ⟨first,mem_cons_self,by rwa [each first mem_cons_self]⟩

theorem typed_of_types (shaped : Shaped object) (plain : object.get "enum" = none)
    (done : insert_enum p object (insert_type (object.get "type") (started object)) = .ok typed) : Typed object typed := by
  have const : object.get "const" = none := shaped.absent (by decide)
  have values : enumValues object = none := by rw [enumValues,plain]; dsimp only; rw [const]; rfl
  rw [insert_enum,values] at done
  obtain rfl := Except.ok.inj done
  have lists : listsTypes object = decide (nonNull (object.get "type") ≠ []) := by simp [listsTypes,plain]
  have no_text {keyword : String} (other : keyword ∉ ["description","required","format"]) :
      get (started object) keyword = none := get_started other
  have nullable := nullable_insert_type (object.get "type") (no_text (by decide))
  have any_of := anyOf_insert_type (object.get "type") (no_text (by decide))
  have enum : get (insert_type (object.get "type") (started object)) "enum" = none := by
    rw [get_insert_type _ (by decide),no_text (by decide)]
  refine ⟨keyed_insert_type _ (keyed_started object),?_,?_,?_,?_,?_,?_,?_⟩
  · intro keyword other
    simp only [mem_cons,not_mem_nil,or_false,not_or] at other
    exact get_insert_type _ (by simp [other])
  · intro some_
    rw [nullable] at some_
    split_ifs at some_ with empty list
    · cases some_
    · exact ⟨list,empty⟩
    · cases some_
  · intro list nonempty
    rw [nullable,if_neg nonempty,if_pos list]
  · rw [any_of,lists]
    by_cases empty : nonNull (object.get "type") = []
    · simp [empty]
    · simp [empty]
  · intro some_
    cases ty : object.get "type" with
    | none =>
      rw [ty] at some_
      change (get (started object) "type").isSome = true at some_
      rw [no_text (by decide)] at some_
      cases some_
    | some value =>
      refine ⟨?_,by simp⟩
      rw [lists,ty]
      rw [ty] at some_
      rcases shaped.types value ty with ⟨name,rfl,-⟩ | ⟨names,-,rfl⟩
      · rfl
      · rw [strings,type_insert_type] at some_
        split_ifs at some_ with empty
        · rw [strings,empty]
          rfl
        · rw [no_text (by decide)] at some_
          cases some_
  · intro some_
    rw [enum] at some_
    cases some_
  · intro valid i
    have no_members : keywordHolds valid object i "enum" = true := by rw [keywordHolds,plain]; rfl
    have none_typed : keywordHolds valid (insert_type (object.get "type") (started object)) i "enum" = true := by
      rw [keywordHolds,enum]
      rfl
    rw [no_members,none_typed,Bool.and_true,Bool.and_true,lists]
    unfold keywordHolds
    cases ty : object.get "type" with
    | none =>
      change Option.all _ (get (started object) "type") = _
      rw [no_text (by decide)]
      rfl
    | some value =>
      rcases shaped.types value ty with ⟨name,rfl,named⟩ | ⟨_,some_,rfl⟩
      · change Option.all _ (get (if name ≠ "" then _ else _) "type") = _
        rw [if_pos named,get_insert,if_pos rfl]
        rfl
      · rw [strings,type_insert_type]
        split_ifs with empty
        · rw [decide_eq_false (not_not_intro empty),Bool.false_or]
          exact (typeMet_nulls some_ empty i).symm
        · rw [no_text (by decide),decide_eq_true empty]
          rfl

theorem typed_ok (shaped : Shaped object)
    (done : insert_enum p object (insert_type (object.get "type") (started object)) = .ok typed) : Typed object typed := by
  cases members : object.get "enum" with
  | none => exact typed_of_types shaped members done
  | some value =>
    obtain ⟨_,rfl⟩ := shaped.members value members
    exact typed_of_enum shaped members done

end

end Ferrin.Google.JsonSchema
