import Ferrin.Google.JsonSchema
import Ferrin.Library.Result

/-!
The conversion of a schema ends, and it reports a recursive reference exactly
when the part that it converts comes back to a definition.
-/
namespace Ferrin.Google.JsonSchema
open JsonObject Ferrin.JsonSchema Ferrin.Result List Nat

/-! ### The part of a schema that is converted -/

def listed : Option JsonValue → List JsonValue
  | some (.array schemas) => schemas
  | _ => []

def propertySchemas : Option JsonValue → List JsonValue
  | some (.object properties) => properties.map (·.2)
  | _ => []

def itemSchemas : Option JsonValue → List JsonValue
  | some (.array items) => items
  | some .null | none => []
  | some items => [items]

def alternatives (any_of : Option JsonValue) : List JsonValue :=
  (listed any_of).filter fun schema => !is_null_schema schema

def parts (object : JsonObject) : List JsonValue :=
  propertySchemas (object.get "properties") ++ itemSchemas (object.get "items") ++ listed (object.get "allOf") ++
    alternatives (object.get "anyOf") ++ listed (object.get "oneOf")

variable (p : Primitives)

def enumFailure (object : JsonObject) : Option Failure := errorOf (insert_enum p object [])

/-- The name of the definition that an object refers to. -/
def referenceOf (object : JsonObject) : Option String := (object.get "$ref").bind (·.as_str)

section
variable {p} (convert : JsonValue → Except Failure (Option JsonValue))

theorem convert_all_error (schemas : List JsonValue) :
    errorOf (convert_all convert schemas) = schemas.findSome? fun schema => errorOf (convert schema) := by
  rw [convert_all,errorOf_mapM]
  simp

theorem convert_list_error (schemas : Option JsonValue) :
    errorOf (convert_list convert schemas) = (listed schemas).findSome? fun schema => errorOf (convert schema) := by
  match schemas with
  | some (.array schemas) =>
    rw [convert_list,errorOf_map,convert_all_error]
    rfl
  | none | some .null | some (.bool _) | some (.number _) | some (.string _) | some (.object _) => rfl

theorem convert_entries_error (properties converted : JsonObject) :
    errorOf (convert_entries convert properties converted) =
      (properties.map (·.2)).findSome? fun schema => errorOf (convert schema) := by
  induction properties generalizing converted with
  | nil => rfl
  | cons entry _ ih =>
    rw [convert_entries,errorOf_bind fun _ => ih _,map_cons,findSome?_cons]
    cases errorOf (convert entry.2) <;> rfl

theorem convert_properties_error (properties : Option JsonValue) :
    errorOf (convert_properties convert properties) =
      (propertySchemas properties).findSome? fun schema => errorOf (convert schema) := by
  match properties with
  | some (.object properties) =>
    rw [convert_properties,errorOf_map,convert_entries_error]
    rfl
  | none | some .null | some (.bool _) | some (.number _) | some (.string _) | some (.array _) => rfl

theorem convert_items_error (items : Option JsonValue) :
    errorOf (convert_items convert items) = (itemSchemas items).findSome? fun schema => errorOf (convert schema) := by
  match items with
  | some (.array items) => exact convert_list_error convert (some (.array items))
  | none | some .null => rfl
  | some (.bool _) | some (.number _) | some (.string _) | some (.object _) => exact List.findSome?_singleton.symm

theorem insert_any_of_error (any_of : Option JsonValue) (result : JsonObject) :
    errorOf (insert_any_of convert any_of result) =
      (alternatives any_of).findSome? fun schema => errorOf (convert schema) := by
  match any_of with
  | some (.array schemas) =>
    unfold insert_any_of alternatives listed
    dsimp only
    split_ifs with nulls
    · split
      · next schema lone =>
        rw [lone,findSome?_singleton,@errorOf_bind _ _ _ _ _ none,Option.or_none]
        intro converted
        split <;> rfl
      · rw [@errorOf_bind _ _ _ _ _ none fun _ => rfl,convert_all_error,Option.or_none]
    · have kept : schemas.filter (fun schema => !is_null_schema schema) = schemas := by
        rw [filter_eq_self]
        intro schema member
        simp only [any_eq_true,not_exists,not_and,Bool.not_eq_true] at nulls
        rw [nulls schema member,Bool.not_false]
      rw [@errorOf_bind _ _ _ _ _ none fun _ => rfl,convert_all_error,Option.or_none,kept]
  | none | some .null | some (.bool _) | some (.number _) | some (.string _) | some (.object _) => rfl

theorem insert_enum_error (object result : JsonObject) : errorOf (insert_enum p object result) = enumFailure p object := by
  unfold enumFailure insert_enum
  split
  · unfold add_enum_to_schema
    dsimp only
    split
    · rfl
    · split
      · rfl
      · split <;> rfl
  · rfl

theorem convert_object_error (object : JsonObject) :
    errorOf (convert_object p convert object) =
      (enumFailure p object).or ((parts object).findSome? fun schema => errorOf (convert schema)) := by
  unfold convert_object
  dsimp only
  rw [← insert_enum_error object]
  refine errorOf_bind ?_
  intro typed
  rw [parts,findSome?_append,findSome?_append,findSome?_append,findSome?_append,Option.or_assoc,
    Option.or_assoc,Option.or_assoc,← convert_properties_error,← convert_items_error,← convert_list_error,
    ← convert_list_error,← insert_any_of_error convert _ []]
  refine errorOf_bind fun properties => errorOf_bind fun items => errorOf_bind fun all_of => ?_
  rw [insert_any_of_error convert _ [],← insert_any_of_error convert _ (insert_some _ "allOf" all_of)]
  refine errorOf_bind fun result => ?_
  rw [@errorOf_bind _ _ _ _ _ none fun _ => rfl,Option.or_none]

end

def isRecursive : Failure → Bool
  | .Unsupported error => is_recursive_reference_error error
  | .Depth => false

def Ordinary (failure : Failure) : Prop := isRecursive failure = false ∧ failure ≠ .Depth

theorem recursive_reference_recursive (reference : String) :
    ∃ failure, (recursive_reference reference : Except Failure (Option JsonValue)) = .error failure ∧
      isRecursive failure = true := by
  refine ⟨_,rfl,?_⟩
  simp only [isRecursive,is_recursive_reference_error, isPrefixOf_iff_prefix]
  refine ⟨(" " ++ reference).toList,?_⟩
  rw [← String.toList_append]
  congr 1

variable {failure : Failure} {object : JsonObject} {reference key : String} {context : Context} {d n m : Nat}
  {value schema definition : JsonValue} {entry : String × JsonValue} {is_root : Bool}

theorem false_schema_ordinary {α : Type} (fails : (false_schema : Except Failure α) = .error failure) :
    Ordinary failure := by
  cases fails
  exact ⟨by decide,by simp⟩

theorem enumFailure_ordinary (fails : enumFailure p object = some failure) : Ordinary failure := by
  have unsupported (fails : (unsupported_enum : Except Failure JsonObject) = .error failure) : Ordinary failure := by
    cases fails
    exact ⟨by decide,by simp⟩
  have failed := errorOf_eq_some.mp fails
  unfold insert_enum add_enum_to_schema at failed
  dsimp only at failed
  split at failed
  · split at failed
    · cases failed
    · split at failed
      · exact unsupported failed
      · split at failed <;> cases failed
  · cases failed

theorem referenced_definition_ordinary
    (fails : referenced_definition reference context = .error failure) : Ordinary failure := by
  have unsupported (fails : (unsupported_reference reference : Except Failure (JsonValue × String)) = .error failure) :
      Ordinary failure := by
    cases fails
    refine ⟨?_,by simp⟩
    change isPrefixOf _ (("JSON Schema reference: " : String) ++ reference).toList = false
    rw [String.toList_append]
    rfl
  unfold referenced_definition at fails
  dsimp only at fails
  split at fails
  · exact unsupported fails
  split at fails
  · exact unsupported fails
  split at fails
  · exact unsupported fails
  split at fails
  · exact unsupported fails
  split at fails
  · exact unsupported fails
  · cases fails

mutual

/-- How deep a value is nested. -/
def depth : JsonValue → Nat
  | .array items => depthItems items + 1
  | .object entries => depthEntries entries + 1
  | _ => 0

def depthItems : List JsonValue → Nat
  | [] => 0
  | item :: rest => max (depth item) (depthItems rest)

def depthEntries : JsonObject → Nat
  | [] => 0
  | (_,value) :: rest => max (depth value) (depthEntries rest)

end

theorem depthItems_le {items : List JsonValue} : depthItems items ≤ d ↔ ∀ item ∈ items, depth item ≤ d := by
  induction items with
  | nil => simp [depthItems]
  | cons _ _ ih => simp [depthItems,ih]

theorem depthEntries_le {entries : JsonObject} : depthEntries entries ≤ d ↔ ∀ entry ∈ entries, depth entry.2 ≤ d := by
  induction entries with
  | nil => simp [depthEntries]
  | cons _ _ ih => simp [depthEntries,ih]

theorem depth_get (held : object.get key = some value) : depth value < depth (.object object) :=
  lt_succ_of_le (depthEntries_le.mp (Nat.le_refl _) _ (Assoc.mem_of_lookup held))

theorem depth_listed {value : Option JsonValue} (mem : schema ∈ listed value) :
    ∃ own, value = some own ∧ depth schema ≤ depth own := by
  unfold listed at mem
  split at mem
  · exact ⟨_,rfl,le_succ_of_le (depthItems_le.mp (Nat.le_refl _) _ mem)⟩
  · cases mem

theorem depth_parts (mem : schema ∈ parts object) : depth schema < depth (.object object) := by
  have within (key : String) (mem : ∃ own, object.get key = some own ∧ depth schema ≤ depth own) :
      depth schema < depth (.object object) := by
    obtain ⟨_,held,le⟩ := mem
    exact Nat.lt_of_le_of_lt le (depth_get held)
  simp only [parts,mem_append] at mem
  rcases mem with (((property | item) | all_of) | any_of) | one_of
  · refine within "properties" ?_
    unfold propertySchemas at property
    split at property
    · next held =>
      obtain ⟨_,mem,rfl⟩ := List.mem_map.mp property
      exact ⟨_,held,le_succ_of_le (depthEntries_le.mp (Nat.le_refl _) _ mem)⟩
    · cases property
  · refine within "items" ?_
    unfold itemSchemas at item
    split at item
    · next held => exact ⟨_,held,le_succ_of_le (depthItems_le.mp (Nat.le_refl _) _ item)⟩
    · cases item
    · cases item
    · next held =>
      obtain rfl := List.mem_singleton.mp item
      exact ⟨_,held,Nat.le_refl _⟩
  · exact within "allOf" (depth_listed all_of)
  · exact within "anyOf" (depth_listed (mem_of_mem_filter any_of))
  · exact within "oneOf" (depth_listed one_of)

theorem mem_swap_remove (mem : entry ∈ swap_remove object key) : entry ∈ object := by
  induction object with
  | nil => exact mem
  | cons _ _ ih =>
    unfold swap_remove at mem
    split at mem
    · split at mem
      · cases mem
      · next last found =>
        have split := dropLast_append_getLast? _ found
        rcases List.mem_cons.mp mem with rfl | earlier
        · exact mem_cons_of_mem _ (split ▸ mem_append_right _ mem_cons_self)
        · exact mem_cons_of_mem _ (dropLast_subset _ earlier)
    · rcases List.mem_cons.mp mem with rfl | later
      · exact mem_cons_self
      · exact mem_cons_of_mem _ (ih later)

theorem mem_insert (mem : entry ∈ object.insert key value) : entry ∈ object ∨ entry = (key,value) := by
  unfold JsonObject.insert at mem
  split_ifs at mem
  · obtain ⟨_,held,rfl⟩ := List.mem_map.mp mem
    split_ifs
    · exact .inr rfl
    · exact .inl held
  · simpa using mem

theorem mem_extend {later : JsonObject} (mem : entry ∈ extend object later) : entry ∈ object ∨ entry ∈ later := by
  induction later generalizing object with
  | nil => exact .inl mem
  | cons first rest ih =>
    have later : entry ∈ extend (object.insert first.1 first.2) rest := mem
    rcases ih later with old | new
    · rcases mem_insert old with old | rfl
      · exact .inl old
      · exact .inr mem_cons_self
    · exact .inr (mem_cons_of_mem _ new)

theorem depth_merge (own : depth (.object object) ≤ d)
    (other : depth definition ≤ d) : depth (merge_siblings object definition) ≤ d := by
  have sibling (entry : String × JsonValue) (mem : entry ∈ swap_remove object "$ref") : depth entry.2 + 1 ≤ d :=
    Nat.le_trans (succ_le_succ (depthEntries_le.mp (Nat.le_refl _) _ (mem_swap_remove mem))) own
  have bound (entries : JsonObject) (each : ∀ entry ∈ entries, depth entry.2 + 1 ≤ d) (positive : 1 ≤ d) :
      depth (.object entries) ≤ d := by
    have le : depthEntries entries ≤ d - 1 := depthEntries_le.mpr fun entry mem => by
      have := each entry mem
      omega
    rw [depth]
    omega
  have positive : 1 ≤ d := Nat.le_trans (succ_le_succ (Nat.zero_le _)) own
  unfold merge_siblings
  dsimp only
  split
  · exact bound _ sibling positive
  · next entries =>
    refine bound _ (fun entry mem => ?_) positive
    rcases mem_extend mem with old | new
    · exact Nat.le_trans (succ_le_succ (depthEntries_le.mp (Nat.le_refl _) _ old)) other
    · exact sibling entry new
  · exact other

def definitionKeys (context : Context) : List String :=
  ((context.dollar_definitions.getD []).map ("#/$defs/" ++ ·.1)) ++
    (context.definitions.getD []).map ("#/definitions/" ++ ·.1)

def unresolved (context : Context) : Nat := ((definitionKeys context).filter (· ∉ context.resolving)).length

theorem referenced_definition_ok (found : referenced_definition reference context = .ok (definition,key)) :
    ∃ start definitions entries name,
      (start,definitions) ∈ [("#/$defs/",context.dollar_definitions),("#/definitions/",context.definitions)] ∧
      definitions = some entries ∧ JsonObject.get entries name = some definition ∧ key = start ++ name ∧
      ∃ encoded decoded, reference.toList = start.toList ++ encoded ∧ '/' ∉ encoded ∧
        percent_decode (String.ofList encoded) = some decoded ∧ name = unescape decoded := by
  unfold referenced_definition at found
  dsimp only at found
  split at found
  · cases found
  next start definitions source =>
  split_ifs at found with bad
  · cases found
  split at found
  · cases found
  next decoded decodes =>
  split_ifs at found with invalid
  · cases found
  split at found
  · cases found
  next held =>
  cases found
  obtain ⟨entries,rfl,held⟩ := Option.bind_eq_some_iff.mp held
  have starts := find?_some source
  obtain ⟨encoded,split⟩ := List.isPrefixOf_iff_prefix.mp starts
  have same : reference.toList.drop start.toList.length = encoded := by rw [← split,drop_left]
  rw [same] at bad decodes
  exact ⟨start,_,entries,_,mem_of_find?_eq_some source,rfl,held,rfl,encoded,decoded,split.symm,
    fun slash => bad (.inr slash),decodes,rfl⟩

theorem unresolved_push
    (found : referenced_definition reference context = .ok (definition,key)) (fresh : key ∉ context.resolving) :
    unresolved (context.push key) < unresolved context := by
  have known : key ∈ definitionKeys context := by
    obtain ⟨_,_,_,name,source,rfl,held,rfl,-⟩ := referenced_definition_ok found
    have mem := Assoc.mem_of_lookup held
    simp only [mem_cons,Prod.mk.injEq,not_mem_nil,or_false] at source
    rcases source with ⟨rfl,same⟩ | ⟨rfl,same⟩
    · refine mem_append_left _ (List.mem_map.mpr ⟨(name,definition),?_,rfl⟩)
      rw [← same]
      exact mem
    · refine mem_append_right _ (List.mem_map.mpr ⟨(name,definition),?_,rfl⟩)
      rw [← same]
      exact mem
  have fewer : unresolved (context.push key) =
      (((definitionKeys context).filter (· ∉ context.resolving)).filter (· ≠ key)).length := by
    rw [filter_filter]
    unfold unresolved definitionKeys Context.push
    congr 2
    funext other
    simp [and_comm]
  rw [fewer]
  refine List.length_filter_lt_length_iff_exists.mpr ⟨key,List.mem_filter.mpr ⟨known,?_⟩,?_⟩
  · simpa using fresh
  · simp

theorem convert_definition_ends {most : Nat} (n : Nat) : ∀ (schema : JsonValue) (is_root : Bool) (context : Context),
    depth schema ≤ most → (∀ reference definition key, referenced_definition reference context = .ok (definition,key) →
      depth definition ≤ most) →
    unresolved context * (most + 1) + depth schema < n → convert_definition p n schema is_root context ≠ .error .Depth := by
  induction n with
  | zero =>
    intro schema is_root context le bound less
    omega
  | succ n ih =>
    intro schema is_root context le bound less
    match schema with
    | .bool true => exact fun fails => by cases fails
    | .bool false => exact fun fails => by cases fails
    | .null | .number _ | .string _ | .array _ => exact fun fails => by cases fails
    | .object object =>
      unfold convert_definition
      split
      · next reference _ =>
        intro fails
        rcases bind_error.mp fails with unknown | ⟨⟨_,key⟩,found,fails⟩
        · exact (referenced_definition_ordinary unknown).2 rfl
        · dsimp only at fails
          split_ifs at fails with inside
          · cases fails
          have push := unresolved_push found inside
          refine ih _ _ (context.push key) (depth_merge le (bound _ _ _ found)) bound ?_ fails
          · have := depth_merge le (bound _ _ _ found)
            have := Nat.mul_le_mul_right (most + 1) push
            rw [succ_mul] at this
            omega
      · split_ifs
        · exact fun fails => by cases fails
        · exact fun fails => by cases fails
        · intro fails
          have failed := errorOf_eq_some.mpr fails
          rw [errorOf_map,convert_object_error] at failed
          rcases Option.or_eq_some_iff.mp failed with enumeration | ⟨-,part⟩
          · exact (enumFailure_ordinary p enumeration).2 rfl
          · obtain ⟨schema,member,fails⟩ := exists_of_findSome?_eq_some part
            have less' := depth_parts member
            exact ih schema false context (by omega) bound (by omega) (errorOf_eq_some.mp fails)

/-! ### Runs of different depth -/

section
variable {p} {convert convert' : JsonValue → Except Failure (Option JsonValue)}
  (more : ∀ schema, Resumes .Depth (convert schema) (convert' schema))
include more

theorem convert_all_resumes (schemas : List JsonValue) :
    Resumes .Depth (convert_all convert schemas) (convert_all convert' schemas) :=
  .mapM (fun schema => .map or_null (more schema)) schemas

theorem convert_list_resumes (schemas : Option JsonValue) :
    Resumes .Depth (convert_list convert schemas) (convert_list convert' schemas) := by
  unfold convert_list
  split
  · exact .map _ (convert_all_resumes more _)
  · exact .refl _

theorem convert_entries_resumes (properties converted : JsonObject) :
    Resumes .Depth (convert_entries convert properties converted) (convert_entries convert' properties converted) := by
  induction properties generalizing converted with
  | nil => exact .refl _
  | cons entry _ ih => exact .bind (more entry.2) fun _ => ih _

theorem convert_properties_resumes (properties : Option JsonValue) :
    Resumes .Depth (convert_properties convert properties) (convert_properties convert' properties) := by
  unfold convert_properties
  split
  · exact .map _ (convert_entries_resumes more _ _)
  · exact .refl _

theorem convert_items_resumes (items : Option JsonValue) :
    Resumes .Depth (convert_items convert items) (convert_items convert' items) := by
  unfold convert_items
  split
  · exact convert_list_resumes more _
  · exact .refl _
  · exact .refl _
  · exact more _

theorem insert_any_of_resumes (any_of : Option JsonValue) (result : JsonObject) :
    Resumes .Depth (insert_any_of convert any_of result) (insert_any_of convert' any_of result) := by
  unfold insert_any_of
  split
  · split_ifs
    · split
      · exact .bind (more _) fun _ => .refl _
      · exact .bind (convert_all_resumes more _) fun _ => .refl _
    · exact .bind (convert_all_resumes more _) fun _ => .refl _
  · exact .refl _

theorem convert_object_resumes (object : JsonObject) :
    Resumes .Depth (convert_object p convert object) (convert_object p convert' object) := by
  unfold convert_object
  exact .bind (.refl _) fun _ => .bind (convert_properties_resumes more _) fun _ =>
    .bind (convert_items_resumes more _) fun _ => .bind (convert_list_resumes more _) fun _ =>
    .bind (insert_any_of_resumes more _ _) fun _ => .bind (convert_list_resumes more _) fun _ => .refl _

end

theorem convert_definition_resumes (le : n ≤ m) (schema : JsonValue) (is_root : Bool) (context : Context) :
    Resumes .Depth (convert_definition p n schema is_root context) (convert_definition p m schema is_root context) := by
  induction n generalizing m schema is_root context with
  | zero => exact .inl rfl
  | succ n ih =>
    obtain ⟨m,rfl⟩ := Nat.exists_eq_add_of_le' (Nat.lt_of_lt_of_le (Nat.succ_pos n) le)
    have le : n ≤ m := by omega
    match schema with
    | .bool true | .bool false | .null | .number _ | .string _ | .array _ => exact .refl _
    | .object object =>
      unfold convert_definition
      split
      · refine .bind (.refl _) fun found => ?_
        dsimp only
        split_ifs
        · exact .refl _
        · exact ih le _ _ _
      · split_ifs
        · exact .refl _
        · exact .refl _
        · exact .map _ (convert_object_resumes (fun schema => ih le schema false context) object)

theorem converts_deeper (le : n ≤ m)
    {converted : Option JsonValue} (done : convert_definition p n schema is_root context = .ok converted) :
    convert_definition p m schema is_root context = .ok converted := by
  rcases convert_definition_resumes p le schema is_root context with cut | same
  · rw [done] at cut
    cases cut
  · rw [same,done]

theorem convert_definition_unique (first : convert_definition p n schema is_root context ≠ .error .Depth)
    (second : convert_definition p m schema is_root context ≠ .error .Depth) :
    convert_definition p n schema is_root context = convert_definition p m schema is_root context := by
  rcases Nat.le_total n m with le | le
  · exact ((convert_definition_resumes p le schema is_root context).resolve_left first).symm
  · exact (convert_definition_resumes p le schema is_root context).resolve_left second

/-- The conversion of a schema comes to another one, with the definitions that it is then inside of. -/
inductive Visits : Context → JsonValue → Context → JsonValue → Prop where
  | here (context : Context) (schema : JsonValue) : Visits context schema context schema
  | definition {context context' : Context} {object : JsonObject} {reference key : String} {definition schema' : JsonValue} :
    referenceOf object = some reference → referenced_definition reference context = .ok (definition,key) →
    key ∉ context.resolving →
    Visits (context.push key) (merge_siblings object definition) context' schema' →
    Visits context (.object object) context' schema'
  | part {context context' : Context} {object : JsonObject} {before after : List JsonValue} {schema schema' : JsonValue} :
    referenceOf object = none → is_empty_object_schema object = false → enumFailure p object = none →
    parts object = before ++ schema :: after →
    (∀ earlier ∈ before, ∃ n converted, convert_definition p n earlier false context = .ok converted) →
    Visits context schema context' schema' → Visits context (.object object) context' schema'

def Returns (context : Context) (schema : JsonValue) : Prop :=
  ∃ object reference definition key, schema = .object object ∧ referenceOf object = some reference ∧
    referenced_definition reference context = .ok (definition,key) ∧ key ∈ context.resolving

theorem recursion_returns (n : Nat) : ∀ {schema : JsonValue} {is_root : Bool} {context : Context} {failure : Failure},
    convert_definition p n schema is_root context = .error failure → isRecursive failure = true →
    ∃ context' schema', Visits p context schema context' schema' ∧ Returns context' schema' := by
  induction n with
  | zero =>
    intro schema is_root context failure fails recursive
    cases fails
    cases recursive
  | succ n ih =>
    intro schema is_root context failure fails recursive
    have ordinary (kind : Ordinary failure) : False := by
      rw [kind.1] at recursive
      cases recursive
    match schema with
    | .bool false => exact (ordinary (false_schema_ordinary fails)).elim
    | .bool true | .null | .number _ | .string _ | .array _ => cases fails
    | .object object =>
      unfold convert_definition at fails
      split at fails
      · next reference owned =>
        rcases bind_error.mp fails with unknown | ⟨⟨definition,key⟩,found,fails⟩
        · exact (ordinary (referenced_definition_ordinary unknown)).elim
        · dsimp only at fails
          split_ifs at fails with inside
          · exact ⟨context,_,.here _ _,object,reference,definition,key,rfl,owned,found,inside⟩
          · obtain ⟨context',schema',visits,returns⟩ := ih fails recursive
            exact ⟨context',schema',.definition owned found inside visits,returns⟩
      · next plain =>
        split_ifs at fails with empty
        have failed := errorOf_eq_some.mpr fails
        rw [errorOf_map,convert_object_error] at failed
        rcases Option.or_eq_some_iff.mp failed with enumeration | ⟨enumeration,part⟩
        · exact (ordinary (enumFailure_ordinary p enumeration)).elim
        · obtain ⟨_,_,_,split,fails,earlier⟩ := List.findSome?_eq_some_iff.mp part
          obtain ⟨context',schema',visits,returns⟩ := ih (errorOf_eq_some.mp fails) recursive
          refine ⟨context',schema',.part plain ?_ enumeration split (fun other member => ?_) visits,returns⟩
          · exact Bool.not_eq_true _ ▸ empty
          · obtain ⟨converted,done⟩ := errorOf_eq_none.mp (earlier other member)
            exact ⟨n,converted,done⟩

theorem returns_recursion {context' : Context} {schema' : JsonValue}
    (visits : Visits p context schema context' schema') (returns : Returns context' schema') (is_root : Bool) :
    ∃ n failure, convert_definition p n schema is_root context = .error failure ∧ isRecursive failure = true := by
  induction visits generalizing is_root with
  | here =>
    obtain ⟨object,reference,definition,_,rfl,owned,found,inside⟩ := returns
    obtain ⟨failure,fails,recursive⟩ := recursive_reference_recursive reference
    refine ⟨1,failure,?_,recursive⟩
    unfold referenceOf at owned
    simp only [convert_definition,owned,found,bind,Except.bind,if_pos inside]
    exact fails
  | definition owned found fresh _ ih =>
    obtain ⟨n,failure,fails,recursive⟩ := ih returns is_root
    refine ⟨n + 1,failure,?_,recursive⟩
    unfold referenceOf at owned
    simp only [convert_definition,owned,found,bind,Except.bind,if_neg fresh]
    exact fails
  | @part context context' object before after schema schema' plain empty enumeration split earlier rest ih =>
    obtain ⟨n,failure,fails,recursive⟩ := ih returns false
    have real : failure ≠ .Depth := by
      rintro rfl
      cases recursive
    have enough : ∃ m, n ≤ m ∧ ∀ other ∈ before, ∃ converted, convert_definition p m other false context = .ok converted := by
      clear split ih
      induction before with
      | nil => exact ⟨n,Nat.le_refl n,by simp⟩
      | cons first _ ih =>
        obtain ⟨m,le,done⟩ := ih fun other mem => earlier other (mem_cons_of_mem _ mem)
        obtain ⟨k,converted,own⟩ := earlier first mem_cons_self
        refine ⟨max m k,by omega,fun other mem => ?_⟩
        rcases List.mem_cons.mp mem with rfl | later
        · exact ⟨converted,converts_deeper p (Nat.le_max_right m k) own⟩
        · obtain ⟨converted,done⟩ := done other later
          exact ⟨converted,converts_deeper p (Nat.le_max_left m k) done⟩
    obtain ⟨m,le,done⟩ := enough
    have fails : convert_definition p m schema false context = .error failure := by
      rcases convert_definition_resumes p le schema false context with cut | same
      · rw [fails] at cut
        cases cut
        exact (real rfl).elim
      · rw [same,fails]
    have part : (parts object).findSome? (fun schema => errorOf (convert_definition p m schema false context)) =
        some failure := by
      rw [split]
      refine List.findSome?_eq_some_iff.mpr ⟨before,schema,after,rfl,errorOf_eq_some.mpr fails,fun other mem => ?_⟩
      exact errorOf_eq_none.mpr (done other mem)
    refine ⟨m + 1,failure,errorOf_eq_some.mp ?_,recursive⟩
    unfold referenceOf at plain
    simp only [convert_definition,plain,empty,Bool.false_eq_true,if_false]
    rw [errorOf_map,convert_object_error,enumeration,part,Option.none_or]

def enough (schema : JsonValue) : Nat := unresolved (rootContext schema) * (depth schema + 1) + depth schema + 1

def convert_json_schema_to_openapi_schema (schema : JsonValue) : Except Failure (Option JsonValue) :=
  convert_definition p (enough schema) schema true (rootContext schema)

theorem depth_definition
    (found : referenced_definition reference (rootContext schema) = .ok (definition,key)) : depth definition ≤ depth schema := by
  obtain ⟨_,_,entries,_,source,rfl,held,-⟩ := referenced_definition_ok found
  have within {mem : String} (held' : (schema.get mem).bind (·.as_object) = some entries) :
      depth definition ≤ depth schema := by
    obtain ⟨_,outer,inner⟩ := Option.bind_eq_some_iff.mp held'
    unfold JsonValue.as_object at inner
    split at inner
    · cases inner
      obtain ⟨_,whole,outer⟩ := Option.bind_eq_some_iff.mp outer
      unfold JsonValue.as_object at whole
      split at whole
      · cases whole
        exact (Nat.lt_trans (depth_get held) (depth_get outer)).le
      · cases whole
    · cases inner
  simp only [mem_cons,Prod.mk.injEq,not_mem_nil,or_false] at source
  rcases source with ⟨-,same⟩ | ⟨-,same⟩
  · exact within same.symm
  · exact within same.symm

theorem convert_json_schema_ends (schema : JsonValue) : convert_json_schema_to_openapi_schema p schema ≠ .error .Depth :=
  convert_definition_ends p _ schema true _ (Nat.le_refl _) (fun _ _ _ found => depth_definition found) (lt_succ_self _)

theorem recursion_reported_iff (schema : JsonValue) :
    (∃ failure, convert_json_schema_to_openapi_schema p schema = .error failure ∧ isRecursive failure = true) ↔
      ∃ context' schema', Visits p (rootContext schema) schema context' schema' ∧ Returns context' schema' := by
  constructor
  · rintro ⟨failure,fails,recursive⟩
    exact recursion_returns p _ fails recursive
  · rintro ⟨_,_,visits,returns⟩
    obtain ⟨n,failure,fails,recursive⟩ := returns_recursion p visits returns true
    refine ⟨failure,?_,recursive⟩
    rw [← fails]
    refine convert_definition_unique p (convert_json_schema_ends p schema) ?_
    rw [fails]
    rintro same
    cases same
    cases recursive

end Ferrin.Google.JsonSchema
