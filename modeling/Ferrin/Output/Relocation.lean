import Ferrin.Output.LocalRefs

/-!
Where the local references of an item schema point, before and after the schema
is put into the wrapper.
-/
namespace Ferrin.Output
open JsonObject JsonPointer List JsonValue
open JsonPointer (bytes)

/-! ### Schema positions and resources -/

/-- The schema inside of an object that stands below it at the tokens. -/
inductive Child (o : JsonObject) : List String → JsonValue → Prop where
  | record {key name : String} {entries : JsonObject} {child : JsonValue} : key ∈ recordKeywords →
    o.get key = some (.object entries) → entries.get name = some child → Child o [key,name] child
  | item {key : String} {items : List JsonValue} {i : Nat} {child : JsonValue} : key ∈ listKeywords ++ schemaKeywords →
    o.get key = some (.array items) → items[i]? = some child → Child o [key,toString i] child
  | schema {key : String} {child : JsonValue} : key ∈ schemaKeywords → o.get key = some child → child.is_array = false →
    Child o [key] child

def declares : JsonValue → Bool
  | .object o => declares_resource o
  | _ => false

/-- The schemas of a document, each with its position and with the position of the innermost resource around it, if the
document declares one. -/
inductive Schemas (document : JsonValue) : Option (List String) → List String → JsonValue → Prop where
  | document : Schemas document (if declares document then some [] else none) [] document
  | child {resource : Option (List String)} {position tokens : List String} {o : JsonObject} {schema : JsonValue} :
    Schemas document resource position (.object o) → Child o tokens schema →
    Schemas document (if declares schema then some (position ++ tokens) else resource) (position ++ tokens) schema

/-- A reference to the root of a resource, or to a place below it. -/
def Local (reference : String) : Prop := reference = "#" ∨ ['#','/'] <+: reference.toList

/-- The location that a local reference resolves to. Its base is the innermost resource, else the document. -/
def target (resource : Option (List String)) (reference : String) : Option (List String) :=
  (location reference).map (resource.getD [] ++ ·)

section
variable {document schema : JsonValue} {o : JsonObject} {resource : Option (List String)} {position tokens : List String}

theorem Child.depth (child : Child o tokens schema) : schema.depth < (JsonValue.object o).depth := by
  cases child with
  | record _ held inside => exact Nat.lt_trans (depth_get inside) (depth_get held)
  | item _ held inside => exact Nat.lt_trans (depth_item (mem_of_getElem? inside)) (depth_get held)
  | schema _ held => exact depth_get held

theorem Schemas.undeclared (schemas : Schemas document none position schema) : declares schema = false := by
  generalize same : (none : Option (List String)) = resource at schemas
  cases schemas with
  | document => split_ifs at same with declared; simpa using declared
  | child => split_ifs at same with declared; simpa using declared

theorem Schemas.document_plain (schemas : Schemas document resource position schema) (plain : schema.is_array = false) :
    document.is_array = false := by
  induction schemas with
  | document => exact plain
  | child _ _ ih => exact ih rfl

end

def relocate_member (root : String) (n : Nat) (key : String) : JsonValue → JsonValue :=
  if key ∈ referenceKeywords then relocate_string root
  else if key ∈ recordKeywords then relocate_record (relocate root n)
  else if key ∈ listKeywords then relocate_list (relocate root n)
  else if key ∈ schemaKeywords then relocate_schema (relocate root n)
  else id

section
variable {root : String} {n : Nat} {o o' : JsonObject} {key : String} {v v' : JsonValue}

theorem records_disjoint : ∀ key ∈ recordKeywords, key ∉ referenceKeywords := by decide

theorem lists_disjoint : ∀ key ∈ listKeywords, key ∉ referenceKeywords ∧ key ∉ recordKeywords := by decide

theorem schemas_disjoint : ∀ key ∈ schemaKeywords, key ∉ referenceKeywords ∧ key ∉ recordKeywords ∧ key ∉ listKeywords := by
  decide

theorem nodup_keywords : referenceKeywords.Nodup ∧ recordKeywords.Nodup ∧ listKeywords.Nodup ∧ schemaKeywords.Nodup := by
  decide

theorem relocate_object (plain : declares_resource o = false) : ∃ o' : JsonObject, relocate root (n + 1) (.object o) = .object o' ∧
    o'.map (·.1) = o.map (·.1) ∧ ∀ key : String, o'.get key = (o.get key).map (relocate_member root n key) := by
  obtain ⟨references,records,lists,schemas⟩ := nodup_keywords
  refine ⟨_,by rw [relocate,if_neg (by simp [plain])],?_,fun key => ?_⟩
  · rw [(foldl_modify schemas _).1,(foldl_modify lists _).1,(foldl_modify records _).1,(foldl_modify references _).1]
  · rw [(foldl_modify schemas _).2,(foldl_modify lists _).2,(foldl_modify records _).2,(foldl_modify references _).2]
    unfold relocate_member
    by_cases schema : key ∈ schemaKeywords
    · obtain ⟨reference,record,list⟩ := schemas_disjoint key schema
      simp only [schema,reference,record,list,if_true,if_false]
    · simp only [schema,if_false]
      by_cases list : key ∈ listKeywords
      · obtain ⟨reference,record⟩ := lists_disjoint key list
        simp only [list,reference,record,if_true,if_false]
      · simp only [list,if_false]
        by_cases record : key ∈ recordKeywords
        · simp only [record,records_disjoint key record,if_true,if_false]
        · by_cases reference : key ∈ referenceKeywords
          · simp only [record,reference,if_true,if_false]
          · simp only [record,reference,if_false,Option.map_id_fun,id]

theorem relocate_declared (declared : declares v = true) : relocate root n v = v := by
  cases v with
  | object o =>
    cases n with
    | zero => rfl
    | succ => rw [relocate,if_pos (show declares_resource o = true from declared)]
  | _ => cases n <;> rfl

theorem is_array_object (o : JsonObject) : (JsonValue.object o).is_array = false := rfl

theorem relocate_is_array : (relocate root n v).is_array = v.is_array := by
  cases v with
  | object =>
    cases n with
    | zero => rfl
    | succ =>
      rw [relocate]
      split_ifs
      · rfl
      · exact is_array_object _
  | _ => cases n <;> rfl

theorem declares_relocate : declares (relocate root n v) = declares v := by
  cases v with
  | object o =>
    cases n with
    | zero => rfl
    | succ n =>
      cases plain : declares_resource o with
      | true => rw [relocate_declared (show declares (.object o) = true from plain)]
      | false =>
        obtain ⟨o',same,_,get⟩ := relocate_object plain
        rw [same]
        have kept : o'.get "$id" = JsonObject.get o "$id" := by
          rw [get,show relocate_member root n "$id" = id from rfl,Option.map_id_fun,id]
        rw [declares,declares,declares_resource,declares_resource,kept]
  | _ => cases n <;> rfl

theorem Child.relocate {tokens : List String} {schema : JsonValue} (child : Child o tokens schema)
    (get : ∀ key : String, o'.get key = (o.get key).map (relocate_member root n key)) :
    Child o' tokens (Output.relocate root n schema) := by
  cases child with
  | @record key name entries _ known held inside =>
    have held' : o'.get key = some (.object (entries.map fun entry => (entry.1,Output.relocate root n entry.2))) := by
      rw [get,held,relocate_member,if_neg (records_disjoint key known),if_pos known]
      rfl
    exact .record known held' (by rw [get_map,inside]; rfl)
  | @item key items i _ known held inside =>
    have held' : o'.get key = some (.array (items.map (Output.relocate root n))) := by
      rw [get,held,relocate_member]
      rcases List.mem_append.mp known with list | schema
      · obtain ⟨reference,record⟩ := lists_disjoint key list
        rw [if_neg reference,if_neg record,if_pos list]
        rfl
      · obtain ⟨reference,record,list⟩ := schemas_disjoint key schema
        rw [if_neg reference,if_neg record,if_neg list,if_pos schema]
        rfl
    exact .item known held' (by rw [getElem?_map,inside]; rfl)
  | @schema key _ known held plain =>
    obtain ⟨reference,record,list⟩ := schemas_disjoint key known
    refine .schema known ?_ (relocate_is_array.trans plain)
    rw [get,held,relocate_member,if_neg reference,if_neg record,if_neg list,if_pos known,Option.map_some]
    cases schema with
    | array => cases plain
    | _ => rfl

inductive Moved (root : String) : JsonValue → JsonValue → Prop where
  | same (v : JsonValue) : Moved root v v
  | reference (text : String) : Moved root (.string text) (.string (relocate_reference root text))
  | array {items : List JsonValue} (next : JsonValue → JsonValue) : (∀ item ∈ items, Moved root item (next item)) →
    Moved root (.array items) (.array (items.map next))
  | object {o o' : JsonObject} (next : String → JsonValue → JsonValue) : o'.map (·.1) = o.map (·.1) →
    (∀ key : String, o'.get key = (o.get key).map (next key)) →
    (∀ key v, o.get key = some v → Moved root v (next key v)) → Moved root (.object o) (.object o')

theorem Moved.member (moved : Moved root v v') (token : String) : Option.Rel (Moved root) (member token v) (member token v') := by
  have refl (x : Option JsonValue) : Option.Rel (Moved root) x x := by
    cases x with
    | none => exact .none
    | some v => exact .some (.same v)
  cases moved with
  | same => exact refl _
  | reference => exact refl _
  | @array items next each =>
    cases found : index token with
    | none => simp [JsonPointer.member,found]
    | some i =>
      simp only [JsonPointer.member,found,Option.bind_some,getElem?_map]
      cases held : items[i]? with
      | none => exact .none
      | some item => exact .some (each item (mem_of_getElem? held))
  | @object o o' next keys get each =>
    simp only [JsonPointer.member,get]
    cases held : JsonObject.get o token with
    | none => exact .none
    | some own => exact .some (each token own held)

theorem Moved.valueAt (moved : Moved root v v') (place : List String) :
    Option.Rel (Moved root) (JsonPointer.valueAt v place) (JsonPointer.valueAt v' place) := by
  induction place generalizing v v' with
  | nil => exact .some moved
  | cons token _ ih =>
    have step := moved.member token
    rw [valueAt,valueAt]
    cases held : JsonPointer.member token v with
    | none =>
      rw [held] at step
      cases held' : JsonPointer.member token v' with
      | none => exact .none
      | some =>
        rw [held'] at step
        cases step
    | some =>
      rw [held] at step
      cases held' : JsonPointer.member token v' with
      | none =>
        rw [held'] at step
        cases step
      | some =>
        rw [held'] at step
        cases step with
        | some moved => exact ih moved

theorem moved_member (each : ∀ v, Moved root v (relocate root n v)) (key : String) (v : JsonValue) :
    Moved root v (relocate_member root n key v) := by
  have items (vs : List JsonValue) : Moved root (.array vs) (.array (vs.map (relocate root n))) :=
    .array _ fun item _ => each item
  unfold relocate_member
  split_ifs
  · cases v with
    | string text => exact .reference text
    | _ => exact .same _
  · cases v with
    | object children =>
      refine .object (fun _ => relocate root n) ?_ (get_map (relocate root n) children) fun _ v _ => each v
      rw [map_map]
      rfl
    | _ => exact .same _
  · cases v with
    | array vs => exact items vs
    | _ => exact .same _
  · cases v with
    | array vs => exact items vs
    | _ => exact each _
  · exact .same v

theorem moved_relocate : ∀ (n : Nat) (v : JsonValue), Moved root v (relocate root n v)
  | 0,v => .same v
  | n + 1,.object o => by
    cases plain : declares_resource o with
    | true =>
      rw [relocate_declared (show declares (.object o) = true from plain)]
      exact .same _
    | false =>
      obtain ⟨_,same,keys,get⟩ := @relocate_object root n o plain
      rw [same]
      exact .object (relocate_member root n) keys get fun key v _ => moved_member (moved_relocate n) key v
  | n + 1,.null | n + 1,.bool _ | n + 1,.number _ | n + 1,.string _ | n + 1,.array _ => .same _

theorem location_relocate_reference {names : List String} {path : List UInt8} {reference : String} (local_ : Local reference)
    (spelled : JsonPointer.bytes root = 35 :: path) (safe : ∀ byte ∈ path, byte.toNat ≠ 37) (known : tokens path = some names) :
    location (relocate_reference root reference) = (location reference).map (names ++ ·) := by
  unfold relocate_reference
  split_ifs with whole
  · subst whole
    have document : location "#" = some [] := by decide
    rw [location_root spelled safe known,document]
    simp
  · obtain ⟨pointer,text⟩ := local_.resolve_left whole
    have split : reference = "#/" ++ String.ofList pointer := by
      rw [← String.toList_inj,← text]
      simp
    have dropped : reference.toList.dropPrefix? ['#','/'] = some pointer := by
      rw [← text]
      exact dropPrefix?_append_of_beq _ BEq.rfl
    rw [dropped]
    dsimp only
    rw [split,location_below spelled safe known]

end

/-! ### The wrapper -/

def itemsPlace : List String := ["properties","elements","items"]

section
variable (output : ArrayOutput) {schema : JsonValue} {resource : Option (List String)} {position : List String}

def ArrayOutput.relocated : JsonValue := relocate ITEMS_ROOT (output.element.depth + 1) output.element

theorem get_elements_schema (key : String) (other : key ≠ "minItems" ∧ key ≠ "maxItems") :
    (output.elements_schema).get key = JsonObject.get [("type",.string "array"),("items",output.relocated)] key := by
  rw [ArrayOutput.elements_schema,get_insert_some,if_neg other.2,get_insert_some,if_neg other.1]
  rfl

theorem wrapper_items (plain : output.element.is_array = false) : Schemas output.wrapper_schema
    (if declares output.relocated then some itemsPlace else none) itemsPlace output.relocated := by
  have root : Schemas output.wrapper_schema none [] output.wrapper_schema := .document
  have outer : declares_resource output.elements_schema = false := by
    rw [declares_resource,get_elements_schema output "$id" (by decide)]
    rfl
  have elements : Schemas output.wrapper_schema none ["properties","elements"] (.object output.elements_schema) := by
    have step := root.child (.record (by decide) rfl rfl : Child _ ["properties","elements"] (.object output.elements_schema))
    rwa [declares,outer] at step
  refine elements.child (.schema (by decide) ?_ (relocate_is_array.trans plain) : Child _ ["items"] output.relocated)
  rw [get_elements_schema output "items" (by decide)]
  rfl

theorem relocated_schemas (plain : output.element.is_array = false)
    (schemas : Schemas output.element resource position schema) :
    ∃ schema', Schemas output.wrapper_schema (resource.map (itemsPlace ++ ·)) (itemsPlace ++ position) schema' ∧
      (resource.isSome = true → schema' = schema) ∧
      (resource = none → ∃ n, schema.depth < n ∧ schema' = relocate ITEMS_ROOT n schema) := by
  induction schemas with
  | document =>
    have placed := wrapper_items output plain
    rw [ArrayOutput.relocated,declares_relocate] at placed
    refine ⟨output.relocated,?_,fun known => ?_,fun _ => ⟨_,Nat.lt_succ_self _,rfl⟩⟩
    · cases declared : declares output.element with
      | true =>
        rw [declared] at placed
        exact placed
      | false =>
        rw [declared] at placed
        exact placed
    · cases declared : declares output.element with
      | true => exact relocate_declared declared
      | false =>
        rw [declared] at known
        cases known
  | @child resource position tokens o schema parent inside ih =>
    obtain ⟨_,placed,same,moved⟩ := ih
    cases resource with
    | some =>
      rw [same rfl] at placed
      refine ⟨schema,?_,fun _ => rfl,fun none_ => by split_ifs at none_⟩
      · have step := placed.child inside
        rw [append_assoc] at step
        split_ifs at step ⊢ <;> exact step
    | none =>
      obtain ⟨n,_,rfl⟩ := moved rfl
      obtain ⟨n,rfl⟩ : ∃ k, n = k + 1 := ⟨n - 1,by omega⟩
      obtain ⟨_,spelled,_,get⟩ := @relocate_object ITEMS_ROOT n o parent.undeclared
      rw [spelled] at placed
      have step := placed.child (inside.relocate get)
      rw [declares_relocate,append_assoc] at step
      refine ⟨relocate ITEMS_ROOT n schema,?_,fun known => ?_,fun _ => ⟨n,?_,rfl⟩⟩
      · split_ifs at step ⊢ <;> exact step
      · split_ifs at known with declared
        · exact relocate_declared declared
        · cases known
      · have below := inside.depth
        omega

theorem valueAt_items : valueAt output.wrapper_schema itemsPlace = some output.relocated := by
  have items := get_elements_schema output "items" (by decide)
  have own : JsonObject.get [("type",.string "array"),("items",output.relocated)] "items" = some output.relocated := rfl
  change (JsonObject.get output.elements_schema "items").bind (valueAt · []) = _
  rw [items,own]
  rfl

/-- At each place below the items stands what stands there in the item schema, but for references. -/
theorem valueAt_wrapper (place : List String) : Option.Rel (Moved ITEMS_ROOT) (valueAt output.element place)
    (valueAt output.wrapper_schema (itemsPlace ++ place)) := by
  rw [valueAt_append,valueAt_items,Option.bind_some]
  exact (moved_relocate _ output.element).valueAt place

/-- In the wrapper a local reference of the item schema names the same node of the item schema as before, and the
schemas inside of a resource that is declared are unchanged. -/
theorem wrapper_keeps_references {o : JsonObject} (schemas : Schemas output.element resource position (.object o)) :
    ∃ o' : JsonObject, Schemas output.wrapper_schema (resource.map (itemsPlace ++ ·)) (itemsPlace ++ position) (.object o') ∧
      (resource.isSome = true → o' = o) ∧
      ∀ keyword ∈ referenceKeywords, ∀ reference, o.get keyword = some (.string reference) → Local reference →
        ∃ reference', o'.get keyword = some (.string reference') ∧
          target (resource.map (itemsPlace ++ ·)) reference' = (target resource reference).map (itemsPlace ++ ·) ∧
          ∀ place, target resource reference = some place → Option.Rel (Moved ITEMS_ROOT) (valueAt output.element place)
            (valueAt output.wrapper_schema (itemsPlace ++ place)) := by
  obtain ⟨schema',placed,same,moved⟩ := relocated_schemas output (schemas.document_plain rfl) schemas
  cases resource with
  | some base =>
    rw [same rfl] at placed
    refine ⟨o,placed,fun _ => rfl,fun keyword _ reference held _ => ⟨reference,held,?_,fun place _ => valueAt_wrapper output place⟩⟩
    simp [target,Function.comp_def]
  | none =>
    obtain ⟨n,deep,rfl⟩ := moved rfl
    obtain ⟨n,rfl⟩ : ∃ k, n = k + 1 := ⟨n - 1,by omega⟩
    obtain ⟨o',spelled,_,get⟩ := @relocate_object ITEMS_ROOT n o schemas.undeclared
    rw [spelled] at placed
    refine ⟨o',placed,nofun,fun keyword known reference held local_ => ?_⟩
    refine ⟨relocate_reference ITEMS_ROOT reference,?_,?_,fun place _ => valueAt_wrapper output place⟩
    · rw [get,held,relocate_member,if_pos known]
      rfl
    · have path : bytes ITEMS_ROOT = 35 :: bytes "/properties/elements/items" := by decide
      have names : tokens (bytes "/properties/elements/items") = some itemsPlace := by decide
      have safe : ∀ byte ∈ bytes "/properties/elements/items", byte.toNat ≠ 37 := by decide +kernel
      rw [target,target,location_relocate_reference local_ path safe names]
      cases location reference <;> rfl

def referringItem : ArrayOutput where
  element := .object [("$defs",.object [("A",.object [("type",.string "string")])]),
    ("properties",.object [("a",.object [("$ref",.string "#/$defs/A")])])]
  min_items := some 1
  max_items := none

theorem wrapper_keeps_references_definition : ∃ (o' : JsonObject) (reference : String),
    Schemas referringItem.wrapper_schema none (itemsPlace ++ ["properties","a"]) (.object o') ∧
      o'.get "$ref" = some (.string reference) ∧ target none reference = some (itemsPlace ++ ["$defs","A"]) := by
  have position : Schemas referringItem.element none ["properties","a"] (.object [("$ref",.string "#/$defs/A")]) :=
    Schemas.child (.document : Schemas referringItem.element none [] _)
      (.record (by decide) rfl rfl : Child _ ["properties","a"] (.object [("$ref",.string "#/$defs/A")]))
  obtain ⟨o',placed,_,references⟩ := wrapper_keeps_references referringItem position
  obtain ⟨reference,held,same,_⟩ := references "$ref" (by decide) "#/$defs/A" rfl (.inr (by decide))
  have before : target none "#/$defs/A" = some ["$defs","A"] := by decide
  rw [before] at same
  exact ⟨o',reference,placed,held,same⟩

end

end Ferrin.Output
