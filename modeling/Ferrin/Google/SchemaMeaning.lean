import Ferrin.Google.SchemaParts

/-!
What a converted schema accepts: the instances of the original, unless a keyword
of the result was written over or said too much.
-/
namespace Ferrin.Google.JsonSchema
open JsonObject Ferrin.JsonSchema Ferrin.Result List
open Option (bind_eq_some_iff ne_none_iff_exists' or_none some)

/-! ### The alternatives -/

variable {schema i : JsonValue} {result : JsonObject} {keyword : String}

section
variable {convert : JsonValue → Except Failure (Option JsonValue)} {object : JsonObject}
  {resolve : String → Option JsonValue}

theorem null_schema_rejects (carried : Carried schema) (null : is_null_schema schema = true)
    (other : i ≠ .null) (n : Nat) : validates resolve n schema i = false := by
  obtain ⟨value,held,text⟩ := bind_eq_some_iff.mp (of_decide_eq_true null)
  obtain rfl : value = .string "null" := by
    cases value with
    | string =>
      cases text
      rfl
    | _ => cases text
  obtain ⟨object,rfl,named⟩ : ∃ object, schema = .object object ∧ get object "type" = some (.string "null") := by
    cases schema with
    | object object => exact ⟨object,rfl,held⟩
    | _ => cases held
  have plain : get object "$ref" = none ∧ get object "nullable" = none := by
    cases carried with
    | reference _ _ beside =>
      rcases beside _ (Assoc.mem_of_lookup named) with same | annotation
      · exact absurd same (by decide)
      · exact absurd annotation (by decide)
    | schema shaped => exact ⟨shaped.absent (by decide),shaped.absent (by decide)⟩
  cases n with
  | zero => rfl
  | succ n =>
    have rejected : keywordHolds (validates resolve n) object i "type" = false := by
      rw [keywordHolds,named]
      change hasType "null" i = false
      rw [Bool.eq_false_iff]
      exact fun holds => other ((hasType_null i).mp holds)
    unfold validates
    simp only [plain.1,isNullable,plain.2,met,assertions,all_cons,rejected]
    simp

inductive Joins (convert : JsonValue → Except Failure (Option JsonValue)) (object before : JsonObject) : JsonObject → Prop where
  | absent : object.get "anyOf" = none → Joins convert object before before
  | lone {schema : JsonValue} {own : JsonObject} : lone object = some schema → convert schema = .ok (some (.object own)) →
    Joins convert object before (extend (insert before "nullable" (.bool true)) own)
  | alternatives {schemas converted : List JsonValue} {joined : JsonObject} : object.get "anyOf" = some (.array schemas) →
    lone object = none → convert_all convert (alternatives (object.get "anyOf")) = .ok converted →
    (joined = if hasNull object then insert (insert before "anyOf" (.array converted)) "nullable" (.bool true)
      else insert before "anyOf" (.array converted)) → Joins convert object before joined

theorem insert_any_of_joins {before joined : JsonObject} (shaped : Shaped object)
    (faithful : Faithful resolve convert (alternatives (object.get "anyOf")))
    (done : insert_any_of convert (object.get "anyOf") before = .ok joined) : Joins convert object before joined := by
  cases held : object.get "anyOf" with
  | none =>
    rw [held] at done
    cases done
    exact .absent held
  | some value =>
    obtain ⟨schemas,rfl⟩ := shaped.alternatives "anyOf" (by decide) value held
    rw [held] at done faithful
    unfold insert_any_of at done
    dsimp only at done
    have nulls : hasNull object = schemas.any is_null_schema := by rw [hasNull,held]; rfl
    have kept : alternatives (object.get "anyOf") = schemas.filter fun schema => !is_null_schema schema := by rw [held]; rfl
    split_ifs at done with null
    · split at done
      · next schema single =>
        have only : lone object = some schema := by rw [lone,nulls,if_pos null,kept,single]
        obtain ⟨converted,own_ok,done⟩ := bind_ok.mp done
        obtain ⟨_,rfl,-⟩ := faithful schema (by
          change schema ∈ schemas.filter _
          rw [single]
          exact mem_cons_self) converted own_ok
        cases done
        exact .lone only own_ok
      · next others =>
        obtain ⟨converted,all_ok,done⟩ := bind_ok.mp done
        cases done
        refine .alternatives held ?_ (kept ▸ all_ok) (by rw [nulls,if_pos null])
        rw [lone,nulls,if_pos null,kept]
        split
        · next schema single => exact absurd single (others schema)
        · rfl
    · obtain ⟨_,all_ok,done⟩ := bind_ok.mp done
      cases done
      have whole : schemas.filter (fun schema => !is_null_schema schema) = schemas := by
        rw [filter_eq_self]
        intro schema mem
        simp only [any_eq_true,not_exists,not_and,Bool.not_eq_true] at null
        rw [null schema mem,Bool.not_false]
      refine .alternatives held ?_ ?_ (by rw [nulls,if_neg null])
      · rw [lone,nulls,if_neg null]
      · rw [kept,whole]
        exact all_ok

theorem meets_or {valid : JsonValue → JsonValue → Bool} {all first second : String → Option JsonValue}
    (apart : ∀ keyword ∈ assertions, all keyword = (first keyword).or (second keyword) ∧
      (first keyword = none ∨ second keyword = none)) : Meets valid all i ↔ Meets valid first i ∧ Meets valid second i := by
  have each (keyword : String) (mem : keyword ∈ assertions) :
      (all keyword).all (keywordMet valid keyword · i) = true ↔
        (first keyword).all (keywordMet valid keyword · i) = true ∧
          (second keyword).all (keywordMet valid keyword · i) = true := by
    obtain ⟨split,none_ | none_⟩ := apart keyword mem
    · rw [split,none_]
      simp
    · rw [split,none_]
      simp
  constructor
  · intro meets
    exact ⟨fun keyword mem => ((each keyword mem).mp (meets keyword mem)).1,
      fun keyword mem => ((each keyword mem).mp (meets keyword mem)).2⟩
  · rintro ⟨one,other⟩ keyword mem
    exact (each keyword mem).mpr ⟨one keyword mem,other keyword mem⟩

/-- Objects that say the same, but for null where the first is nullable and the second accepts it, have one meaning. -/
theorem same_of_meets (no_ref : get result "$ref" = none) (plain : get object "$ref" = none)
    (unmarked : get object "nullable" = none)
    (null : isNullable result = true → Accepts resolve (.object object) .null)
    (meets : ∃ depth, ∀ n m, depth ≤ n → depth ≤ m → ∀ i, (i = .null → isNullable result = false) →
      (Meets (validates resolve n) (get result) i ↔ Meets (validates resolve m) (get object) i)) :
    Same resolve (.object result) (.object object) := by
  obtain ⟨depth,meets⟩ := meets
  obtain ⟨accepted,null⟩ : ∃ accepted, ∀ n, accepted ≤ n → isNullable result = true →
      validates resolve n (.object object) .null = true := by
    cases nullable : isNullable result with
    | false => exact ⟨0,fun _ _ impossible => by cases impossible⟩
    | true =>
      obtain ⟨accepted,null⟩ := null nullable
      exact ⟨accepted,fun n le _ => null n le⟩
  refine ⟨depth + accepted + 1,fun n m le le' i => ?_⟩
  by_cases marked : isNullable result = true ∧ i = .null
  · obtain ⟨nullable,rfl⟩ := marked
    rw [null m (by omega) nullable]
    obtain ⟨n,rfl⟩ := Nat.exists_eq_add_of_le' (Nat.le_trans (Nat.le_add_left 1 _) le)
    unfold validates
    simp [no_ref,nullable]
  · obtain ⟨n,rfl⟩ := Nat.exists_eq_add_of_le' (Nat.le_trans (Nat.le_add_left 1 _) le)
    obtain ⟨m,rfl⟩ := Nat.exists_eq_add_of_le' (Nat.le_trans (Nat.le_add_left 1 _) le')
    have alike := meets n m (by omega) (by omega) i fun same => by
      rw [Bool.eq_false_iff]
      exact fun nullable => marked ⟨nullable,same⟩
    have own : (isNullable result && decide (i = .null)) = false := by
      rw [Bool.eq_false_iff,ne_eq,Bool.and_eq_true,decide_eq_true_iff]
      exact marked
    have other : isNullable object = false := by rw [isNullable,unmarked]; rfl
    unfold validates
    simp only [no_ref,plain,own,other,Bool.false_and,Bool.false_or]
    rw [Bool.eq_iff_iff,met_iff,met_iff,alike]

end

structure Converted (root : JsonValue) (context : Context) (own : JsonObject) (schema : JsonValue) : Prop where
  keyed : Keyed own
  no_ref : get own "$ref" = none
  nullable : ∀ value, get own "nullable" = some value → value = .bool true
  writes : ∀ keyword ∈ assertions, (get own keyword).isSome = true → Writes context schema keyword
  same : Same (dereference root) (.object own) schema

section
variable {p : Primitives} {convert : JsonValue → Except Failure (Option JsonValue)} {object typed joined : JsonObject}
  {properties items all_of one_of : Option JsonValue} {root : JsonValue} {context : Context}

theorem keyed_nested (keyed : Keyed typed) : Keyed (nested typed properties items all_of) :=
  ((keyed.insert_some _ _).insert_some _ _).insert_some _ _

theorem keyed_closed (keyed : Keyed joined) : Keyed (closed object one_of joined) :=
  (((keyed.insert_some _ _).insert_some _ _).insert_some _ _).insert_some _ _

theorem alternatives_parts (mem : schema ∈ alternatives (object.get "anyOf")) : schema ∈ parts object := by
  simp [parts,mem]

theorem lone_alternative (single : lone object = some schema) :
    hasNull object = true ∧ alternatives (object.get "anyOf") = [schema] := by
  unfold lone at single
  split_ifs at single with null
  split at single
  · next own same =>
    cases single
    exact ⟨null,same⟩
  · cases single

variable {schemas : List JsonValue}

theorem holds_alternatives (carried : ∀ schema ∈ subschemas object, Carried schema)
    (held : object.get "anyOf" = some (.array schemas)) {n : Nat}
    (plain : i = .null → hasNull object = false) (resolve : String → Option JsonValue) :
    keywordHolds (validates resolve n) object i "anyOf" =
      ((alternatives (object.get "anyOf")).map (validates resolve n · i)).any id := by
  rw [keywordHolds,held,Option.all_some]
  change (schemas.map _).any id = ((schemas.filter _).map _).any id
  rw [any_map,any_map,any_filter]
  refine Bool.eq_iff_iff.mpr ?_
  rw [any_eq_true,any_eq_true]
  constructor
  · rintro ⟨schema,mem,holds⟩
    refine ⟨schema,mem,?_⟩
    rw [Bool.and_eq_true]
    refine ⟨?_,holds⟩
    rw [Bool.not_eq_true',Bool.eq_false_iff]
    intro null
    have sub : schema ∈ subschemas object := by simp [subschemas,held,listed,mem]
    by_cases same : i = .null
    · have none_ : schemas.any is_null_schema = false := by
        have none_ := plain same
        rw [hasNull,held] at none_
        exact none_
      rw [List.any_eq_true.mpr ⟨schema,mem,null⟩] at none_
      cases none_
    · change validates resolve n schema i = true at holds
      rw [null_schema_rejects (carried schema sub) null same] at holds
      cases holds
  · rintro ⟨schema,mem,holds⟩
    exact ⟨schema,mem,(Bool.and_eq_true _ _ ▸ holds).2⟩

structure Node (p : Primitives) (convert : JsonValue → Except Failure (Option JsonValue)) (root : JsonValue)
    (context : Context) (object typed : JsonObject) (properties items all_of one_of : Option JsonValue) : Prop where
  shaped : Shaped object
  carried : ∀ schema ∈ subschemas object, Carried schema
  plain : referenceOf object = none
  nonempty : is_empty_object_schema object = false
  kept : Kept root context object
  each : ∀ schema ∈ parts object, ∀ converted, convert schema = .ok converted →
    ∃ own, converted = some (.object own) ∧ Converted root context own schema
  converts : Converts p convert object typed properties items all_of one_of

namespace Node
variable (node : Node p convert root context object typed properties items all_of one_of)
include node

theorem known : Typed object typed := typed_ok node.shaped node.converts.typed

theorem faithful : Faithful (dereference root) convert (parts object) := by
  intro schema member converted ok
  obtain ⟨own,same,facts⟩ := node.each schema member converted ok
  exact ⟨own,same,facts.same⟩

theorem no_ref : get object "$ref" = none := node.shaped.absent (by decide)

theorem own_same : ∃ depth, ∀ n m, depth ≤ n → depth ≤ m → ∀ i, (i = .null → get typed "nullable" = none) →
    (Meets (validates (dereference root) n) (ownGet object typed properties items all_of one_of) i ↔
      ∀ keyword ∈ assertions, keyword ≠ "anyOf" → keywordHolds (validates (dereference root) m) object i keyword = true) := by
  refine own_meets node.shaped node.converts node.faithful fun value held => ?_
  cases node.carried value (by simp [subschemas,held]) with
  | bool accepts => exact .inl ⟨accepts,rfl⟩
  | reference => exact .inr ⟨_,rfl⟩
  | schema => exact .inr ⟨_,rfl⟩

theorem written (mem : keyword ∈ assertions)
    (some_ : (ownGet object typed properties items all_of one_of keyword).isSome = true) :
    Writes context (.object object) keyword :=
  .own node.plain node.nonempty (own_of_written node.shaped node.converts mem some_)

theorem typed_nullable (value : JsonValue) (held : get typed "nullable" = some value) :
    value = .bool true ∧ becomesNullable object = true := by
  have facts := node.known.nullable (by rw [held]; rfl)
  have becomes := node.known.becomes facts.1 facts.2
  rw [held] at becomes
  exact ⟨some.inj becomes,by simp [becomesNullable,facts.1,facts.2]⟩

omit node in
theorem meets_object (valid : JsonValue → JsonValue → Bool) (i : JsonValue) : Meets valid (get object) i ↔
    (∀ keyword ∈ assertions, keyword ≠ "anyOf" → keywordHolds valid object i keyword = true) ∧
      keywordHolds valid object i "anyOf" = true := by
  constructor
  · exact fun meets => ⟨fun keyword mem _ => meets keyword mem,meets _ (by decide)⟩
  · rintro ⟨others,any_of⟩ keyword mem
    by_cases same : keyword = "anyOf"
    · exact same ▸ any_of
    · exact others keyword mem same

omit node in
theorem get_ref (known : Typed object typed) : get (nested typed properties items all_of) "$ref" = none := by
  rw [get_nested]
  exact get_typed_none known (by decide)

omit node in
theorem get_nullable : get (nested typed properties items all_of) "nullable" = get typed "nullable" := by
  rw [get_nested]
  rfl

theorem null (becomes : get result "nullable" ≠ none → becomesNullable object = true) :
    isNullable result = true → Accepts (dereference root) (.object object) .null := by
  intro nullable
  refine node.kept.null node.nonempty (becomes fun none_ => ?_)
  rw [isNullable,none_] at nullable
  cases nullable

theorem absent (none_ : object.get "anyOf" = none) :
    Converted root context (closed object one_of (nested typed properties items all_of)) (.object object) := by
  have gets (keyword : String) : get (closed object one_of (nested typed properties items all_of)) keyword =
      ownGet object typed properties items all_of one_of keyword := by
    rw [get_closed,get_nested,ownGet]
  have nullable : get (closed object one_of (nested typed properties items all_of)) "nullable" = get typed "nullable" := by
    rw [gets]
    rfl
  have no_ref : get (closed object one_of (nested typed properties items all_of)) "$ref" = none := by
    rw [get_closed]
    exact get_ref node.known
  refine ⟨keyed_closed (keyed_nested node.known.keyed),no_ref,?_,fun keyword member some_ =>
    node.written member (gets keyword ▸ some_),?_⟩
  · intro value held
    exact (node.typed_nullable value (nullable ▸ held)).1
  obtain ⟨depth,same⟩ := node.own_same
  refine same_of_meets no_ref node.no_ref (node.shaped.absent (by decide)) (node.null fun some_ => ?_)
    ⟨depth,fun n m le le' i plain => ?_⟩
  · obtain ⟨value,held⟩ := ne_none_iff_exists'.mp some_
    exact (node.typed_nullable value (nullable ▸ held)).2
  rw [funext gets,meets_object]
  have any_of : keywordHolds (validates (dereference root) m) object i "anyOf" = true := by rw [keywordHolds,none_]; rfl
  rw [same n m le le' i]
  · simp [any_of]
  · intro null
    by_contra some_
    obtain ⟨value,held⟩ := ne_none_iff_exists'.mp some_
    have plain := plain null
    rw [isNullable,nullable,held,(node.typed_nullable value held).1] at plain
    cases plain

theorem several {converted : List JsonValue} (held : object.get "anyOf" = some (.array schemas))
    (several : lone object = none) (all_ok : convert_all convert (alternatives (object.get "anyOf")) = .ok converted)
    (joined_eq : joined =
      if hasNull object then
        insert (insert (nested typed properties items all_of) "anyOf" (.array converted)) "nullable" (.bool true)
      else insert (nested typed properties items all_of) "anyOf" (.array converted)) :
    Converted root context (closed object one_of joined) (.object object) := by
  have some_ : (object.get "anyOf").isSome = true := by rw [held]; rfl
  have unlisted : listsTypes object = false := by
    by_contra lists
    have single := node.kept.types (by simpa using lists) some_
    rw [several] at single
    cases single
  have free : ownGet object typed properties items all_of one_of "anyOf" = none := by
    change get typed "anyOf" = none
    rw [node.known.alternatives,unlisted]
    rfl
  have get_joined {keyword : String} (other : keyword ≠ "nullable") : get joined keyword =
      if keyword = "anyOf" then some (.array converted) else get (nested typed properties items all_of) keyword := by
    rw [joined_eq]
    by_cases null : hasNull object = true
    · rw [if_pos null,get_insert,if_neg other,get_insert]
    · rw [if_neg null,get_insert]
  have nullable : get (closed object one_of joined) "nullable" =
      if hasNull object then some (.bool true) else get typed "nullable" := by
    rw [get_closed]
    change get joined "nullable" = _
    rw [joined_eq]
    split_ifs
    · rw [get_insert,if_pos rfl]
    · rw [get_insert,if_neg (by decide)]
      exact get_nullable
  have apart : ∀ keyword ∈ assertions, get (closed object one_of joined) keyword =
      (ownGet object typed properties items all_of one_of keyword).or
        (if keyword = "anyOf" then some (.array converted) else none) ∧
      (ownGet object typed properties items all_of one_of keyword = none ∨
        (if keyword = "anyOf" then some (JsonValue.array converted) else none) = none) := by
    intro keyword mem
    have other : keyword ≠ "nullable" := by
      rintro rfl
      exact absurd mem (by decide)
    by_cases same : keyword = "anyOf"
    · subst same
      rw [free,if_pos rfl,get_closed,get_joined other,if_pos rfl]
      exact ⟨rfl,.inl rfl⟩
    · rw [if_neg same,get_closed,get_joined other,if_neg same,get_nested,ownGet,or_none]
      exact ⟨rfl,.inr rfl⟩
  have no_ref : get (closed object one_of joined) "$ref" = none := by
    rw [get_closed,get_joined (by decide),if_neg (by decide)]
    exact get_ref node.known
  have keyed : Keyed joined := by
    rw [joined_eq]
    split_ifs
    · exact ((keyed_nested node.known.keyed).insert _ _).insert _ _
    · exact (keyed_nested node.known.keyed).insert _ _
  have becomes (value : JsonValue) (marked : get (closed object one_of joined) "nullable" = some value) :
      value = .bool true ∧ becomesNullable object = true := by
    rw [nullable] at marked
    split_ifs at marked with null
    · exact ⟨(some.inj marked).symm,by simp [becomesNullable,null]⟩
    · exact node.typed_nullable value marked
  refine ⟨keyed_closed keyed,no_ref,fun value marked => (becomes value marked).1,fun keyword mem found => ?_,?_⟩
  · by_cases same : keyword = "anyOf"
    · rw [same]
      exact .alternatives node.plain node.nonempty some_ several
    · refine node.written mem ?_
      rwa [(apart keyword mem).1,if_neg same,or_none] at found
  obtain ⟨own,own_same⟩ := node.own_same
  have faithful : Faithful (dereference root) convert (alternatives (object.get "anyOf")) :=
    fun schema mem => node.faithful schema (alternatives_parts mem)
  obtain ⟨depth,same⟩ := same_lists (faithful.all all_ok)
  refine same_of_meets no_ref node.no_ref (node.shaped.absent (by decide)) (node.null fun some_ => ?_)
    ⟨own + depth,fun n m le le' i plain => ?_⟩
  · obtain ⟨value,marked⟩ := ne_none_iff_exists'.mp some_
    exact (becomes value marked).2
  have unmarked (null : i = .null) : hasNull object = false ∧ get typed "nullable" = none := by
    have plain := plain null
    rw [isNullable,nullable] at plain
    by_cases has : hasNull object = true
    · rw [if_pos has] at plain
      cases plain
    · refine ⟨by simpa using has,?_⟩
      by_contra some_
      obtain ⟨value,marked⟩ := ne_none_iff_exists'.mp some_
      rw [if_neg has,marked,(node.typed_nullable value marked).1] at plain
      cases plain
  rw [meets_or apart,meets_object,own_same n m (by omega) (by omega) i fun null => (unmarked null).2,
    holds_alternatives node.carried held (fun null => (unmarked null).1),← same n m (by omega) (by omega) i]
  refine and_congr_right fun _ => ⟨fun meets => meets "anyOf" (by decide),fun any_of keyword mem => ?_⟩
  by_cases this : keyword = "anyOf"
  · subst this
    exact any_of
  · dsimp only
    rw [if_neg this]
    rfl

theorem merged {own : JsonObject} (single : lone object = some schema)
    (own_ok : convert schema = .ok (some (.object own))) :
    Converted root context
      (closed object one_of (extend (insert (nested typed properties items all_of) "nullable" (.bool true)) own))
      (.object object) := by
  obtain ⟨has,only⟩ := lone_alternative single
  have sub : schema ∈ parts object := alternatives_parts (by rw [only]; exact mem_cons_self)
  obtain ⟨_,same,facts⟩ := node.each schema sub _ own_ok
  cases same
  have gets (keyword : String) :
      get (closed object one_of (extend (insert (nested typed properties items all_of) "nullable" (.bool true)) own)) keyword =
        (late object one_of keyword).or ((get own keyword).or
          (if keyword = "nullable" then some (.bool true) else get (nested typed properties items all_of) keyword)) := by
    rw [get_closed,get_extend _ facts.keyed,get_insert]
  have nullable :
      get (closed object one_of (extend (insert (nested typed properties items all_of) "nullable" (.bool true)) own))
        "nullable" = some (.bool true) := by
    rw [gets,if_pos rfl]
    change (get own "nullable").or _ = _
    cases held : get own "nullable" with
    | none => rfl
    | some value =>
      rw [facts.nullable value held]
      rfl
  have apart : ∀ keyword ∈ assertions,
      get (closed object one_of (extend (insert (nested typed properties items all_of) "nullable" (.bool true)) own)) keyword =
        (ownGet object typed properties items all_of one_of keyword).or (get own keyword) ∧
      (ownGet object typed properties items all_of one_of keyword = none ∨ get own keyword = none) := by
    intro keyword mem
    have other : keyword ≠ "nullable" := by
      rintro rfl
      exact absurd mem (by decide)
    rw [gets,if_neg other,get_nested]
    cases held : get own keyword with
    | none => exact ⟨by simp [ownGet],.inr rfl⟩
    | some =>
      have writes := facts.writes keyword mem (by rw [held]; rfl)
      have free : ownGet object typed properties items all_of one_of keyword = none := by
        by_contra some_
        exact node.kept.merged node.nonempty schema single keyword writes
          (own_of_written node.shaped node.converts mem (Option.isSome_iff_ne_none.mpr some_))
      have none_ : late object one_of keyword = none := by
        unfold ownGet at free
        exact (Option.or_eq_none_iff.mp free).1
      rw [free,none_]
      exact ⟨rfl,.inl rfl⟩
  have no_ref :
      get (closed object one_of (extend (insert (nested typed properties items all_of) "nullable" (.bool true)) own)) "$ref" =
        none := by
    rw [gets,if_neg (by decide),facts.no_ref,get_ref node.known]
    rfl
  have becomes : becomesNullable object = true := by simp [becomesNullable,has]
  refine ⟨keyed_closed (((keyed_nested node.known.keyed).insert _ _).extend _),no_ref,fun value marked => ?_,
    fun keyword mem found => ?_,?_⟩
  · rw [nullable] at marked
    exact (some.inj marked).symm
  · rw [(apart keyword mem).1] at found
    cases held : ownGet object typed properties items all_of one_of keyword with
    | some => exact node.written mem (by rw [held]; rfl)
    | none =>
      rw [held,Option.none_or] at found
      exact .lone node.plain node.nonempty single (facts.writes keyword mem found)
  obtain ⟨own_depth,own_same⟩ := node.own_same
  obtain ⟨depth,same⟩ := facts.same
  obtain ⟨schemas,held⟩ : ∃ schemas, object.get "anyOf" = some (.array schemas) := by
    cases held : object.get "anyOf" with
    | none =>
      rw [hasNull,held] at has
      cases has
    | some value =>
      obtain ⟨schemas,rfl⟩ := node.shaped.alternatives "anyOf" (by decide) value held
      exact ⟨schemas,rfl⟩
  refine same_of_meets no_ref node.no_ref (node.shaped.absent (by decide)) (node.null fun _ => becomes)
    ⟨own_depth + depth + 1,fun n m le le' i plain => ?_⟩
  have other : i ≠ .null := by
    intro null
    have plain := plain null
    rw [isNullable,nullable] at plain
    cases plain
  have alike : Meets (validates (dereference root) n) (get own) i ↔ validates (dereference root) m schema i = true := by
    rw [← same (n + 1) m (by omega) (by omega) i,← met_iff]
    unfold validates
    simp [facts.no_ref,other]
  rw [meets_or apart,alike,meets_object,own_same n m (by omega) (by omega) i fun null => absurd null other,
    holds_alternatives node.carried held (fun null => absurd null other),only]
  simp

end Node

theorem convert_object_converted (shaped : Shaped object)
    (carried : ∀ schema ∈ subschemas object, Carried schema) (plain : referenceOf object = none)
    (nonempty : is_empty_object_schema object = false) (kept : Kept root context object)
    (each : ∀ schema ∈ parts object, ∀ converted, convert schema = .ok converted →
      ∃ own, converted = some (.object own) ∧ Converted root context own schema)
    (done : convert_object p convert object = .ok result) : Converted root context result (.object object) := by
  obtain ⟨typed,properties,items,all_of,one_of,_,converts,joins,rfl⟩ := convert_object_ok done
  have node : Node p convert root context object typed properties items all_of one_of :=
    ⟨shaped,carried,plain,nonempty,kept,each,converts⟩
  cases insert_any_of_joins shaped (fun schema mem => node.faithful schema (alternatives_parts mem)) joins with
  | absent none_ => exact node.absent none_
  | lone single own_ok => exact node.merged single own_ok
  | alternatives held several all_ok joined_eq => exact node.several held several all_ok joined_eq

end

/-! ### References in place -/

section
variable {object sibling own : JsonObject} {reference : String} {resolve : String → Option JsonValue}

theorem validates_annotated (same : ∀ keyword ∉ annotations, get sibling keyword = get object keyword) (n : Nat)
    (i : JsonValue) : validates resolve n (.object sibling) i = validates resolve n (.object object) i := by
  cases n with
  | zero => rfl
  | succ n =>
    have alike : met (validates resolve n) sibling i = met (validates resolve n) object i := by
      rw [Bool.eq_iff_iff,met_iff,met_iff]
      refine forall₂_congr fun keyword mem => ?_
      rw [same keyword fun annotation => ?_]
      have apart : ∀ keyword ∈ assertions, keyword ∉ annotations := by decide
      exact apart keyword mem annotation
    unfold validates
    simp only [same "$ref" (by decide),isNullable,same "nullable" (by decide),alike]

theorem sibling_annotations (keyed : Keyed object)
    (beside : ∀ entry ∈ object, entry.1 = "$ref" ∨ entry.1 ∈ annotations) :
    ∀ entry ∈ swap_remove object "$ref", entry.1 ∈ annotations := by
  intro entry mem
  have held := (perm_swap_remove keyed "$ref").mem_iff.mp mem
  obtain ⟨held,other⟩ := List.mem_filter.mp held
  exact (beside entry held).resolve_left (by simpa using other)

variable {definition : JsonObject}

theorem get_merged (beside : ∀ entry ∈ sibling, entry.1 ∈ annotations)
    (other : keyword ∉ annotations) : get (extend definition sibling) keyword = get definition keyword :=
  get_extend_of_absent fun entry mem same => other (same ▸ beside entry mem)

theorem carried_of_annotations (keyed : Keyed sibling) (beside : ∀ entry ∈ sibling, entry.1 ∈ annotations) :
    Carried (.object sibling) := by
  have none_ {keyword : String} (other : keyword ∉ annotations) : get sibling keyword = none :=
    get_of_no_key fun entry mem same => other (same ▸ beside entry mem)
  have absurd_ {keyword : String} {p : Prop} (other : keyword ∉ annotations) {value : JsonValue}
      (held : get sibling keyword = some value) : p := by
    rw [none_ other] at held
    cases held
  refine .schema ⟨keyed,fun entry mem => .inr (beside entry mem),fun _ held => absurd_ (by decide) held,
    fun _ held => absurd_ (by decide) held,fun _ held => absurd_ (by decide) held,
    fun _ held => absurd_ (by decide) held,fun keyword mem _ held => ?_⟩ fun schema mem => ?_
  · refine absurd_ (fun annotation => ?_) held
    have apart : ∀ keyword ∈ ["allOf","anyOf","oneOf"], keyword ∉ annotations := by decide
    exact apart keyword mem annotation
  · have empty : subschemas sibling = [] := by
      unfold subschemas
      rw [none_ (by decide),none_ (by decide),none_ (by decide),none_ (by decide),none_ (by decide)]
      rfl
    rw [empty] at mem
    cases mem

theorem carried_merged (carried : Carried (.object definition))
    (beside : ∀ entry ∈ sibling, entry.1 ∈ annotations) : Carried (.object (extend definition sibling)) := by
  have same {keyword : String} (other : keyword ∉ annotations) :
      get (extend definition sibling) keyword = get definition keyword := get_merged beside other
  cases carried with
  | @reference _ name own refers annotated =>
    have refers : referenceOf (extend definition sibling) = some name := by
      unfold referenceOf
      rw [same (by decide)]
      exact refers
    refine .reference (own.extend _) refers fun entry mem => ?_
    · rcases mem_extend mem with old | new
      · exact annotated entry old
      · exact .inr (beside entry new)
  | schema shaped parts =>
    refine .schema ⟨shaped.keyed.extend _,fun entry mem => ?_,?_,?_,?_,?_,fun keyword mem => ?_⟩ ?_
    · rcases mem_extend mem with old | new
      · exact shaped.keywords entry old
      · exact .inr (beside entry new)
    · rw [same (by decide)]
      exact shaped.types
    · rw [same (by decide)]
      exact shaped.members
    · rw [same (by decide)]
      exact shaped.required
    · rw [same (by decide)]
      exact shaped.properties
    · have apart : ∀ keyword ∈ ["allOf","anyOf","oneOf"], keyword ∉ annotations := by decide
      rw [same (apart keyword mem)]
      exact shaped.alternatives keyword mem
    · unfold subschemas
      rw [same (by decide),same (by decide),same (by decide),same (by decide),same (by decide)]
      exact parts

theorem merge_siblings_means (keyed : Keyed object) (beside : ∀ entry ∈ object, entry.1 = "$ref" ∨ entry.1 ∈ annotations)
    {definition : JsonValue} (carried : Carried definition) : Carried (merge_siblings object definition) ∧
      ∀ n i, validates resolve n (merge_siblings object definition) i = validates resolve n definition i := by
  have annotated := sibling_annotations keyed beside
  have keyed := keyed.swap_remove "$ref"
  cases carried with
  | bool accepts =>
    cases accepts with
    | false => exact ⟨.bool false,fun _ _ => rfl⟩
    | true =>
      refine ⟨carried_of_annotations keyed annotated,fun n i => ?_⟩
      have empty : validates resolve n (.object []) i = validates resolve n (.bool true) i := by
        cases n <;> rfl
      rw [← empty]
      refine validates_annotated (fun keyword other => ?_) n i
      exact get_of_no_key fun entry mem same => other (same ▸ annotated entry mem)
  | reference own refers beside' =>
    exact ⟨carried_merged (.reference own refers beside') annotated,fun n i =>
      validates_annotated (fun keyword other => get_merged annotated other) n i⟩
  | schema shaped parts =>
    exact ⟨carried_merged (.schema shaped parts) annotated,fun n i =>
      validates_annotated (fun keyword other => get_merged annotated other) n i⟩

end

section
variable (p : Primitives) {root : JsonValue}

/-- Nothing is lost of what the conversion comes to. -/
def AllKept (root : JsonValue) (context : Context) (schema : JsonValue) : Prop :=
  ∀ context' object, Visits p context schema context' (.object object) → referenceOf object = none →
    Kept root context' object

variable {object : JsonObject} {context : Context}

theorem carried_parts (carried : ∀ schema ∈ subschemas object, Carried schema) : ∀ schema ∈ parts object, Carried schema := by
  intro schema mem
  simp only [parts,mem_append] at mem
  rcases mem with (((property | item) | all_of) | any_of) | one_of
  · exact carried schema (by simp [subschemas,property])
  · cases held : object.get "items" with
    | none =>
      rw [held] at item
      cases item
    | some value =>
      have single := carried value (by simp [subschemas,held])
      rw [held] at item
      cases single with
      | bool accepts => exact List.mem_singleton.mp item ▸ .bool accepts
      | reference keyed refers beside => exact List.mem_singleton.mp item ▸ .reference keyed refers beside
      | schema shaped inner => exact List.mem_singleton.mp item ▸ .schema shaped inner
  · exact carried schema (by simp [subschemas,all_of])
  · have listed_ := mem_of_mem_filter any_of
    exact carried schema (by simp [subschemas,listed_])
  · exact carried schema (by simp [subschemas,one_of])

theorem converted_empty (shaped : Shaped object) (plain : referenceOf object = none)
    (empty : is_empty_object_schema object = true) (kept : Kept root context object) :
    Converted root context (insert_some [("type",.string "object")] "description"
      (non_empty_string (object.get "description"))) (.object object) := by
  have typed : object.get "type" = some (.string "object") := by
    have named := of_decide_eq_true (Bool.and_eq_true _ _ ▸ (Bool.and_eq_true _ _ ▸ empty).1).1
    obtain ⟨value,held,text⟩ := bind_eq_some_iff.mp named
    cases value with
    | string =>
      cases text
      exact held
    | _ => cases text
  change Converted root context (insert_some (insert [] "type" (.string "object")) "description" _) _
  have gets {keyword : String} (other : keyword ≠ "description") :
      get (insert_some (insert [] "type" (.string "object")) "description"
        (non_empty_string (object.get "description"))) keyword =
        if keyword = "type" then some (.string "object") else none := by
    rw [get_insert_some,if_neg other,get_insert]
    rfl
  have apart {keyword : String} (mem : keyword ∈ assertions) : keyword ≠ "description" := by
    rintro rfl
    exact absurd mem (by decide)
  refine ⟨(Keyed.nil.insert _ _).insert_some _ _,gets (by decide),fun value held => ?_,fun keyword mem held => ?_,?_⟩
  · rw [gets (by decide)] at held
    cases held
  · rw [gets (apart mem)] at held
    split_ifs at held with same
    · exact same ▸ .empty plain empty
    · cases held
  obtain ⟨depth,objects⟩ := kept.objects empty
  refine ⟨depth + 1,fun n m le le' i => ?_⟩
  obtain ⟨n,rfl⟩ := Nat.exists_eq_add_of_le' (Nat.le_trans (Nat.le_add_left 1 _) le)
  have own : validates (dereference root) (n + 1) (.object (insert_some (insert [] "type" (.string "object")) "description"
      (non_empty_string (object.get "description")))) i = hasType "object" i := by
    have meets : met (validates (dereference root) n) (insert_some (insert [] "type" (.string "object")) "description"
        (non_empty_string (object.get "description"))) i = hasType "object" i := by
      rw [Bool.eq_iff_iff,met_iff]
      constructor
      · intro meets
        have typed := meets "type" (by decide)
        rw [gets (by decide),if_pos rfl] at typed
        exact typed
      · intro holds keyword mem
        rw [gets (apart mem)]
        split_ifs with same
        · exact same ▸ holds
        · rfl
    unfold validates
    simp only [gets (show ("$ref" : String) ≠ "description" by decide),isNullable,
      gets (show ("nullable" : String) ≠ "description" by decide),meets]
    simp
  rw [own]
  by_cases object_ : ∃ entries, i = .object entries
  · obtain ⟨entries,rfl⟩ := object_
    exact (objects m (by omega) entries).symm
  · have other : hasType "object" i = false := by
      cases i with
      | object entries => exact absurd ⟨entries,rfl⟩ object_
      | _ => simp [hasType]
    obtain ⟨m,rfl⟩ := Nat.exists_eq_add_of_le' (Nat.le_trans (Nat.le_add_left 1 _) le')
    have rejected : keywordHolds (validates (dereference root) m) object i "type" = false := by
      rw [keywordHolds,typed]
      exact other
    unfold validates
    simp only [shaped.absent (show ("$ref" : String) ∉ assertions ++ annotations by decide),isNullable,
      shaped.absent (show ("nullable" : String) ∉ assertions ++ annotations by decide),met,assertions,all_cons,rejected,
      other]
    simp

theorem convert_definition_converted (whole : CarriedRoot root) (n : Nat) : ∀ {schema : JsonValue} {is_root : Bool}
    {context : Context} {converted : Option JsonValue}, Carried schema →
    context.definitions = (rootContext root).definitions →
    context.dollar_definitions = (rootContext root).dollar_definitions → AllKept p root context schema →
    convert_definition p n schema is_root context = .ok converted →
    (converted = none ∧ is_root = true) ∨ ∃ own, converted = some (.object own) ∧ Converted root context own schema := by
  induction n with
  | zero =>
    intro schema is_root context converted _ _ _ _ done
    cases done
  | succ n ih =>
    intro schema is_root context converted carried definitions dollar kept done
    cases carried with
    | bool accepts =>
      cases accepts with
      | false => cases done
      | true =>
        cases done
        refine .inr ⟨[],rfl,.nil,rfl,fun _ held => (by cases held),fun _ _ held => (by cases held),1,fun n m le le' i => ?_⟩
        obtain ⟨n,rfl⟩ := Nat.exists_eq_add_of_le' le
        obtain ⟨m,rfl⟩ := Nat.exists_eq_add_of_le' le'
        rfl
    | @reference object reference keyed refers beside =>
      have owned := refers
      unfold referenceOf at owned
      unfold convert_definition at done
      rw [owned] at done
      obtain ⟨⟨definition,key⟩,found,done⟩ := bind_ok.mp done
      dsimp only at done
      split_ifs at done with inside
      · cases done
      have points := dereference_eq definitions dollar found
      have carried : Carried definition := by
        obtain ⟨_,_,entries,_,source,rfl,held,-⟩ := referenced_definition_ok found
        have mem := Assoc.mem_of_lookup held
        simp only [mem_cons,Prod.mk.injEq,not_mem_nil,or_false] at source
        rcases source with ⟨-,same⟩ | ⟨-,same⟩
        · exact whole.definitions "$defs" (by decide) entries (dollar.symm.trans same.symm) _ mem
        · exact whole.definitions "definitions" (by decide) entries (definitions.symm.trans same.symm) _ mem
      obtain ⟨merged,means⟩ := @merge_siblings_means _ (dereference root) keyed beside _ carried
      have next := @ih _ is_root (context.push key) converted merged definitions dollar
        (fun context' object visits => kept context' object (.definition refers found inside visits)) done
      rcases next with none_ | ⟨own,rfl,facts⟩
      · exact .inl none_
      · refine .inr ⟨own,rfl,facts.keyed,facts.no_ref,facts.nullable,fun keyword mem held =>
          .definition refers found (facts.writes keyword mem held),?_⟩
        obtain ⟨depth,same⟩ := facts.same
        refine ⟨depth + 1,fun n m le le' i => ?_⟩
        obtain ⟨m,rfl⟩ := Nat.exists_eq_add_of_le' (Nat.le_trans (Nat.le_add_left 1 _) le')
        rw [same n m (by omega) (by omega) i,means]
        obtain ⟨value,held,text⟩ := bind_eq_some_iff.mp owned
        have value_eq : value = .string reference := by
          cases value with
          | string =>
            cases text
            rfl
          | _ => cases text
        subst value_eq
        conv => rhs; unfold validates
        simp only [held,points,Option.any_some]
    | @schema object shaped parts_carried =>
      have plain : referenceOf object = none := by rw [referenceOf,shaped.absent (by decide)]; rfl
      have here := kept context object (.here _ _) plain
      have owned := plain
      unfold referenceOf at owned
      unfold convert_definition at done
      rw [owned] at done
      dsimp only at done
      split_ifs at done with empty root_
      · cases done
        exact .inl ⟨rfl,root_⟩
      · cases done
        exact .inr ⟨_,rfl,converted_empty shaped plain empty here⟩
      · have nonempty : is_empty_object_schema object = false := by simpa using empty
        obtain ⟨result,result_ok,rfl⟩ := map_ok.mp done
        refine .inr ⟨result,rfl,convert_object_converted shaped parts_carried plain nonempty here
          (fun schema mem converted own_ok => ?_) result_ok⟩
        have no_error := errorOf_eq_none.mpr ⟨result,result_ok⟩
        rw [convert_object_error,Option.or_eq_none_iff] at no_error
        obtain ⟨before,_,split⟩ := append_of_mem mem
        have earlier : ∀ other ∈ before, ∃ n converted, convert_definition p n other false context = .ok converted := by
          intro other held
          obtain ⟨converted,ok⟩ := errorOf_eq_none.mp (List.findSome?_eq_none_iff.mp no_error.2 other
            (by rw [split]; exact mem_append_left _ held))
          exact ⟨n,converted,ok⟩
        have next := @ih schema false context converted (carried_parts parts_carried schema mem) definitions dollar
          (fun context' object visits => kept context' object (.part plain nonempty no_error.1 split earlier visits)) own_ok
        exact next.resolve_left fun none_ => by cases none_.2

/-- The conversion ends on every schema and reports recursion exactly where it comes back to a definition. Where nothing
is lost, a converted schema accepts the instances of the original. -/
theorem schema_meaning_preserved (root : JsonValue) :
    convert_json_schema_to_openapi_schema p root ≠ .error .Depth ∧
      ((∃ failure, convert_json_schema_to_openapi_schema p root = .error failure ∧ isRecursive failure = true) ↔
        ∃ context' schema', Visits p (rootContext root) root context' schema' ∧ Returns context' schema') ∧
      (CarriedRoot root → AllKept p root (rootContext root) root →
        ∀ converted, convert_json_schema_to_openapi_schema p root = .ok (some converted) →
          Same (dereference root) converted root) := by
  refine ⟨convert_json_schema_ends p root,recursion_reported_iff p root,fun carried kept converted done => ?_⟩
  rcases convert_definition_converted p carried _ carried.whole rfl rfl kept done with ⟨none_,-⟩ | ⟨own,same,facts⟩
  · cases none_
  · cases same
    exact facts.same

end

/-! ### Examples -/

def oneOrMore : JsonValue := .number (.PosInt 1)

def aString : JsonObject := [("type",.string "string")]

/-- A list of types beside alternatives, which are written over it. -/
def typesAndAlternatives : JsonObject :=
  [("type",strings ["string","number"]),
    ("anyOf",.array [.object [("minLength",oneOrMore)],.object [("type",.string "number")]])]

def alternativesOnly : JsonObject := [("anyOf",.array [.object [("minLength",oneOrMore)],.object [("type",.string "number")]])]

def stringOrNull : JsonObject := [("anyOf",.array [.object aString,.object [("type",.string "null")]])]

theorem carried_type {name : String} (named : name ≠ "") : Carried (.object [("type",.string name)]) := by
  refine .schema ⟨by simp [Keyed],by simp [assertions],?_,?_,?_,?_,?_⟩ fun schema mem => by cases mem
  · rintro value ⟨⟩
    exact .inl ⟨name,rfl,named⟩
  · rintro value ⟨⟩
  · rintro value ⟨⟩
  · rintro value ⟨⟩
  · intro key mem value held
    simp only [mem_cons,not_mem_nil,or_false] at mem
    rcases mem with rfl | rfl | rfl <;> cases held

theorem carried_minLength (value : JsonValue) : Carried (.object [("minLength",value)]) := by
  refine .schema ⟨by simp [Keyed],by simp [assertions],?_,?_,?_,?_,?_⟩ fun schema mem => by cases mem
  · rintro value ⟨⟩
  · rintro value ⟨⟩
  · rintro value ⟨⟩
  · rintro value ⟨⟩
  · intro key mem value held
    simp only [mem_cons,not_mem_nil,or_false] at mem
    rcases mem with rfl | rfl | rfl <;> cases held

theorem carried_typesAndAlternatives : Carried (.object typesAndAlternatives) := by
  refine .schema ⟨by decide,by simp [assertions,typesAndAlternatives],?_,?_,?_,?_,?_⟩ fun schema mem => ?_
  · rintro value ⟨⟩
    exact .inr ⟨_,by decide,rfl⟩
  · rintro value ⟨⟩
  · rintro value ⟨⟩
  · rintro value ⟨⟩
  · intro key mem value held
    simp only [mem_cons,not_mem_nil,or_false] at mem
    rcases mem with rfl | rfl | rfl <;> cases held
    exact ⟨_,rfl⟩
  · change schema ∈ [.object [("minLength",oneOrMore)],.object [("type",.string "number")]] at mem
    simp only [mem_cons,not_mem_nil,or_false] at mem
    rcases mem with rfl | rfl
    · exact carried_minLength _
    · exact carried_type (by decide)

theorem types_lost_beside_alternatives : ∃ root converted, CarriedRoot root ∧
    (∀ p, convert_json_schema_to_openapi_schema p root = .ok (some converted)) ∧
    ¬ Same (dereference root) converted root := by
  refine ⟨.object typesAndAlternatives,.object alternativesOnly,⟨carried_typesAndAlternatives,?_⟩,fun _ => rfl,?_⟩
  · intro member known entries held
    simp only [mem_cons,not_mem_nil,or_false] at known
    rcases known with rfl | rfl <;> cases held
  · rintro ⟨depth,same⟩
    have same := same (depth + 3) (depth + 3) (Nat.le_add_right _ _) (Nat.le_add_right _ _) (.bool true)
    have accepted : validates (dereference (.object typesAndAlternatives)) (depth + 3) (.object alternativesOnly) (.bool true) =
        true := rfl
    have rejected : validates (dereference (.object typesAndAlternatives)) (depth + 3) (.object typesAndAlternatives)
        (.bool true) = false := rfl
    rw [accepted,rejected] at same
    cases same

theorem carried_stringOrNull : Carried (.object stringOrNull) := by
  refine .schema ⟨by decide,by simp [assertions,stringOrNull],?_,?_,?_,?_,?_⟩ fun schema mem => ?_
  · rintro value ⟨⟩
  · rintro value ⟨⟩
  · rintro value ⟨⟩
  · rintro value ⟨⟩
  · intro key mem value held
    simp only [mem_cons,not_mem_nil,or_false] at mem
    rcases mem with rfl | rfl | rfl <;> cases held
    exact ⟨_,rfl⟩
  · change schema ∈ [.object aString,.object [("type",.string "null")]] at mem
    simp only [mem_cons,not_mem_nil,or_false] at mem
    rcases mem with rfl | rfl
    · exact carried_type (by decide)
    · exact carried_type (by decide)

theorem kept_stringOrNull (p : Primitives) (root : JsonValue) : AllKept p root (rootContext root) (.object stringOrNull) := by
  have writes (context : Context) (keyword : String) : Writes context (.object aString) keyword → keyword = "type" := by
    intro writes
    cases writes with
    | definition refers => cases refers
    | empty => rfl
    | own _ _ mem => exact List.mem_singleton.mp mem
    | alternatives _ _ some_ => cases some_
    | lone _ _ single => cases single
  intro context' object visits plain
  cases visits with
  | here =>
    refine ⟨fun empty => (by cases empty),fun _ _ => ⟨3,fun n le => ?_⟩,fun lists => (by cases lists),fun _ schema single => ?_⟩
    · obtain ⟨n,rfl⟩ := Nat.exists_eq_add_of_le' le
      rfl
    · cases single
      intro keyword written mem
      cases writes _ _ written
      cases mem
  | definition refers => cases refers
  | @part _ _ _ before after schema _ _ _ _ split _ visits =>
    have mem : schema ∈ parts stringOrNull := by rw [split]; simp
    change schema ∈ [JsonValue.object aString] at mem
    obtain rfl := List.mem_singleton.mp mem
    cases visits with
    | here =>
      exact ⟨fun empty => (by cases empty),fun _ becomes => (by cases becomes),fun lists => (by cases lists),
        fun _ schema single => (by cases single)⟩
    | definition refers => cases refers
    | @part _ _ _ before after schema _ _ _ _ split =>
      have mem : schema ∈ parts aString := by rw [split]; simp
      cases mem

/-- The text of a float and the rest are not looked at. -/
def noPrimitives : Primitives := ⟨fun _ => [],id,fun _ bytes => bytes,fun _ => "",fun _ => none⟩

/-- The theorem for an alternative beside null. -/
theorem schema_meaning_preserved_nullable :
    convert_json_schema_to_openapi_schema noPrimitives (.object stringOrNull) =
        .ok (some (.object [("nullable",.bool true),("type",.string "string")])) ∧
      Same (dereference (.object stringOrNull)) (.object [("nullable",.bool true),("type",.string "string")])
        (.object stringOrNull) := by
  have done : convert_json_schema_to_openapi_schema noPrimitives (.object stringOrNull) =
      .ok (some (.object [("nullable",.bool true),("type",.string "string")])) := rfl
  refine ⟨done,(schema_meaning_preserved noPrimitives _).2.2 ⟨carried_stringOrNull,?_⟩
    (kept_stringOrNull noPrimitives _) _ done⟩
  intro member known entries held
  simp only [mem_cons,not_mem_nil,or_false] at known
  rcases known with rfl | rfl <;> cases held

end Ferrin.Google.JsonSchema
