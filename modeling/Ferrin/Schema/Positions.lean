import Ferrin.Library.Result
import Ferrin.Schema.TransformRefs

/-!
What a visit of the schema positions does: it changes the schemas that stand
there and nothing else.
-/
namespace Ferrin.Schema
open JsonObject JsonValue Library List

/-! ### The schemas inside of an object -/

def recordChildren : JsonValue → List JsonValue
  | .object children => (children.map (·.2)).filter fun child => !child.is_array
  | _ => []

def schemaChildren : JsonValue → List JsonValue
  | .array children => children
  | child => [child]

def children (o : JsonObject) : List JsonValue :=
  recordKeywords.flatMap (fun key => ((o.get key).map recordChildren).getD []) ++
    schemaKeywords.flatMap fun key => ((o.get key).map schemaChildren).getD []

/-- A schema position leads from the one value to the other. -/
def Visits (v w : JsonValue) : Prop := ∃ o, v = .object o ∧ w ∈ children o

section
variable {o o' : JsonObject} {v v' w child : JsonValue} {key : String}

theorem mem_held {keys : List String} {parts : JsonValue → List JsonValue} :
    child ∈ keys.flatMap (fun key => ((o.get key).map parts).getD []) ↔
      ∃ key ∈ keys, ∃ v, o.get key = some v ∧ child ∈ parts v := by
  rw [mem_flatMap]
  refine exists_congr fun key => and_congr_right fun _ => ?_
  cases o.get key with
  | none => simp
  | some => simp

theorem mem_children : child ∈ children o ↔
    (∃ key ∈ recordKeywords, ∃ v, o.get key = some v ∧ child ∈ recordChildren v) ∨
      ∃ key ∈ schemaKeywords, ∃ v, o.get key = some v ∧ child ∈ schemaChildren v := by
  rw [children,mem_append,mem_held,mem_held]

theorem mem_recordChildren : child ∈ recordChildren v ↔
    ∃ entries name, v = .object entries ∧ (name,child) ∈ entries ∧ child.is_array = false := by
  cases v with
  | object => simp [recordChildren]
  | _ => simp [recordChildren]

theorem depth_recordChildren (mem : child ∈ recordChildren v) : child.depth < v.depth := by
  obtain ⟨_,_,rfl,held,_⟩ := mem_recordChildren.mp mem
  exact depth_entry held

theorem depth_schemaChildren (mem : child ∈ schemaChildren v) : child.depth ≤ v.depth := by
  cases v with
  | array => exact Nat.le_of_lt (depth_item mem)
  | _ =>
    obtain rfl := List.mem_singleton.mp mem
    exact Nat.le_refl _

theorem depth_children (mem : child ∈ children o) : child.depth < (JsonValue.object o).depth := by
  rcases mem_children.mp mem with ⟨_,_,v,held,inside⟩ | ⟨_,_,v,held,inside⟩
  · exact Nat.lt_trans (depth_recordChildren inside) (depth_get held)
  · exact Nat.lt_of_le_of_lt (depth_schemaChildren inside) (depth_get held)

theorem keyed_schemaChildren (keyed : Keyed v) (mem : child ∈ schemaChildren v) : Keyed child := by
  cases v with
  | array => exact keyed.item _ mem
  | _ =>
    obtain rfl := List.mem_singleton.mp mem
    exact keyed

theorem keyed_children (keyed : Keyed (.object o)) (mem : child ∈ children o) : Keyed child := by
  rcases mem_children.mp mem with ⟨_,_,v,held,inside⟩ | ⟨_,_,v,held,inside⟩
  · obtain ⟨_,_,rfl,entry,_⟩ := mem_recordChildren.mp inside
    exact (keyed.get held).entry _ entry
  · exact keyed_schemaChildren (keyed.get held) inside

/-- The values of one of the keywords with a schema for each name, before and after a visit. -/
inductive RecordVisited (Q : JsonValue → JsonValue → Prop) : JsonValue → JsonValue → Prop where
  | object {entries entries' : JsonObject} : List.Forall₂ (fun entry entry' => entry'.1 = entry.1 ∧
      if entry.2.is_array then entry'.2 = entry.2 else Q entry.2 entry'.2) entries entries' →
    RecordVisited Q (.object entries) (.object entries')
  | other {v : JsonValue} : v.as_object = none → RecordVisited Q v v

inductive SchemasVisited (Q : JsonValue → JsonValue → Prop) : JsonValue → JsonValue → Prop where
  | array {items items' : List JsonValue} : List.Forall₂ Q items items' → SchemasVisited Q (.array items) (.array items')
  | one {v v' : JsonValue} : v.is_array = false → Q v v' → SchemasVisited Q v v'

theorem RecordVisited.keys {Q : JsonValue → JsonValue → Prop} {entries entries' : JsonObject}
    (visited : RecordVisited Q (.object entries) (.object entries')) : entries'.map (·.1) = entries.map (·.1) := by
  cases visited with
  | object each =>
    induction each with
    | nil => rfl
    | cons first _ ih => rw [map_cons,map_cons,first.1,ih]
  | other => rfl

/-- An object before and after a visit that takes schemas to `Q`-related ones. -/
def Visited (Q : JsonValue → JsonValue → Prop) : JsonObject → JsonObject → Prop :=
  Changed fun key => if key ∈ recordKeywords then RecordVisited Q else if key ∈ schemaKeywords then SchemasVisited Q else Eq

section
variable {Q : JsonValue → JsonValue → Prop}

theorem Visited.record (visited : Visited Q o o') (known : key ∈ recordKeywords) (held : o.get key = some v) :
    ∃ v', o'.get key = some v' ∧ RecordVisited Q v v' := by
  obtain ⟨v',at_,related⟩ := visited.of_some held
  rw [if_pos known] at related
  exact ⟨v',at_,related⟩

theorem disjoint_keywords : ∀ key ∈ schemaKeywords, key ∉ recordKeywords := by decide

theorem Visited.schemas (visited : Visited Q o o') (known : key ∈ schemaKeywords) (held : o.get key = some v) :
    ∃ v', o'.get key = some v' ∧ SchemasVisited Q v v' := by
  obtain ⟨v',at_,related⟩ := visited.of_some held
  rw [if_neg (disjoint_keywords key known),if_pos known] at related
  exact ⟨v',at_,related⟩

theorem Visited.other (visited : Visited Q o o') (record : key ∉ recordKeywords) (schema : key ∉ schemaKeywords) :
    o'.get key = o.get key :=
  visited.same fun v v' related => by
    rw [if_neg record,if_neg schema] at related
    exact related.symm

theorem SchemasVisited.children (visited : SchemasVisited Q v v') (kinds : ∀ v v', Q v v' → v'.is_array = v.is_array)
    (mem : child ∈ schemaChildren v') : ∃ before ∈ schemaChildren v, Q before child := by
  have only {x : JsonValue} (single : x.is_array = false) : schemaChildren x = [x] := by
    cases x with
    | array => cases single
    | _ => rfl
  cases visited with
  | array each => exact Result.each_right each mem
  | one plain becomes =>
    rw [only ((kinds _ _ becomes).trans plain)] at mem
    obtain rfl := List.mem_singleton.mp mem
    exact ⟨v,by rw [only plain]; exact mem_singleton_self v,becomes⟩

theorem Visited.children (visited : Visited Q o o') (kinds : ∀ v v', Q v v' → v'.is_array = v.is_array)
    (mem : child ∈ children o') : ∃ before ∈ Schema.children o, Q before child := by
  rcases mem_children.mp mem with ⟨key,known,_,held,inside⟩ | ⟨key,known,_,held,inside⟩
  · obtain ⟨v,own,related⟩ := visited.before held
    rw [if_pos known] at related
    obtain ⟨_,_,rfl,entry,plain⟩ := mem_recordChildren.mp inside
    have found (before : JsonValue) (within : before ∈ recordChildren v) : before ∈ Schema.children o :=
      mem_children.mpr (.inl ⟨key,known,v,own,within⟩)
    cases related with
    | @object entries _ each =>
      obtain ⟨⟨name',before⟩,held,_,becomes⟩ := Result.each_right each entry
      by_cases array : before.is_array
      · rw [if_pos array] at becomes
        subst becomes
        rw [array] at plain
        cases plain
      · rw [if_neg array] at becomes
        exact ⟨before,found before (mem_recordChildren.mpr ⟨entries,name',rfl,held,by simpa using array⟩),becomes⟩
    | other none_ => cases none_
  · obtain ⟨v,own,related⟩ := visited.before held
    rw [if_neg (disjoint_keywords key known),if_pos known] at related
    obtain ⟨before,within,becomes⟩ := related.children kinds inside
    exact ⟨before,mem_children.mpr (.inr ⟨key,known,v,own,within⟩),becomes⟩

end
end

section
variable {m : Type → Type} [Monad m] [LawfulMonad m] {visit visit' : JsonValue → String → m JsonValue} {o : JsonObject}
  {v : JsonValue}

section
variable {Q : JsonValue → JsonValue → Prop}

theorem visit_record_yields (path key : String) (each : ∀ child ∈ recordChildren v, ∀ path, Yields (Q child) (visit child path)) :
    Yields (RecordVisited Q v) (visit_record visit path key v) := by
  cases v with
  | object entries =>
    refine Yields.map (.mapM fun entry mem => ?_) fun entries' => .object
    obtain ⟨name,child⟩ := entry
    dsimp only
    by_cases array : child.is_array
    · rw [if_pos array]
      exact .pure ⟨rfl,by rw [if_pos array]⟩
    · rw [if_neg array]
      refine (each child (mem_recordChildren.mpr ⟨entries,name,rfl,mem,by simpa using array⟩) _).map fun child' becomes => ?_
      exact ⟨rfl,by rwa [if_neg array]⟩
  | _ => exact .pure (.other rfl)

theorem visit_schemas_yields (path key : String) (each : ∀ child ∈ schemaChildren v, ∀ path, Yields (Q child) (visit child path)) :
    Yields (SchemasVisited Q v) (visit_schemas visit path key v) := by
  cases v with
  | array items =>
    refine Yields.map (P := List.Forall₂ (fun (pair : JsonValue × Nat) => Q pair.1) items.zipIdx)
      (.mapM fun pair mem => each pair.1 (fst_mem_of_mem_zipIdx mem) _) fun items' related => .array ?_
    have each_one := List.forall₂_map_left_iff.mpr related
    rwa [zipIdx_map_fst] at each_one
  | _ => exact (each _ (mem_singleton_self _) _).mono fun v' becomes => .one rfl becomes

end

theorem visit_record_congr (path key : String)
    (each : ∀ child ∈ recordChildren v, ∀ path, visit child path = visit' child path) :
    visit_record visit path key v = visit_record visit' path key v := by
  cases v with
  | object entries =>
    refine congrArg (JsonValue.object <$> ·) (mapM_congr fun entry mem => ?_)
    obtain ⟨name,child⟩ := entry
    dsimp only
    split_ifs with array
    · rfl
    · rw [each child (mem_recordChildren.mpr ⟨entries,name,rfl,mem,by simpa using array⟩)]
  | _ => rfl

theorem visit_schemas_congr (path key : String)
    (each : ∀ child ∈ schemaChildren v, ∀ path, visit child path = visit' child path) :
    visit_schemas visit path key v = visit_schemas visit' path key v := by
  cases v with
  | array =>
    exact congrArg (JsonValue.array <$> ·) (mapM_congr fun pair mem => each pair.1 (fst_mem_of_mem_zipIdx mem) _)
  | _ => exact each _ (mem_singleton_self _) _

theorem visit_record_pure (path key : String) (each : ∀ child ∈ recordChildren v, ∀ path, visit child path = pure child) :
    visit_record visit path key v = pure v := by
  rw [visit_record_congr path key each]
  cases v with
  | object =>
    rw [visit_record,mapM_eq_pure,map_pure]
    intro entry _
    simp
  | _ => rfl

theorem visit_schemas_pure (path key : String) (each : ∀ child ∈ schemaChildren v, ∀ path, visit child path = pure child) :
    visit_schemas visit path key v = pure v := by
  rw [visit_schemas_congr path key each]
  cases v with
  | array =>
    rw [visit_schemas]
    simp [zipIdx_map_fst]
  | _ => rfl

def keywords : List String := recordKeywords ++ schemaKeywords

theorem keywords_nodup : keywords.Nodup := by decide

theorem mem_keywords {key : String} : key ∈ keywords ↔ key ∈ recordKeywords ∨ key ∈ schemaKeywords := List.mem_append

variable (visit) in
def visit_keyword (path key : String) (v : JsonValue) : m JsonValue :=
  if key ∈ recordKeywords then visit_record visit path key v else visit_schemas visit path key v

omit [LawfulMonad m] in
theorem foldlM_congr {α β : Type} {f g : β → α → m β} {l : List α} (same : ∀ a ∈ l, ∀ b, f b a = g b a) (b : β) :
    l.foldlM f b = l.foldlM g b := by
  induction l generalizing b with
  | nil => rfl
  | cons a _ ih =>
    rw [foldlM_cons,foldlM_cons,same a mem_cons_self]
    exact congrArg (g b a >>= ·) (funext fun next => ih (fun x mem => same x (mem_cons_of_mem a mem)) next)

theorem visit_children_eq (path : String) : visit_children visit o path =
    keywords.foldlM (fun object key => object.modifyM key (visit_keyword visit path key)) o := by
  rw [keywords,foldlM_append,visit_children]
  refine congrArg₂ (· >>= ·) (foldlM_congr (fun key known object => ?_) o)
    (funext fun next => foldlM_congr (fun key known object => ?_) next)
  · exact congrArg (object.modifyM key) (funext fun v => (if_pos known).symm)
  · exact congrArg (object.modifyM key) (funext fun v => (if_neg (disjoint_keywords key known)).symm)

theorem keyword_children {P : JsonValue → Prop} (each : ∀ child ∈ children o, P child) {key : String} (known : key ∈ keywords)
    (held : o.get key = some v) : (key ∈ recordKeywords → ∀ child ∈ recordChildren v, P child) ∧
      (key ∉ recordKeywords → ∀ child ∈ schemaChildren v, P child) := by
  refine ⟨fun record child inside => each child (mem_children.mpr (.inl ⟨key,record,v,held,inside⟩)),
    fun record child inside => each child (mem_children.mpr (.inr ⟨key,?_,v,held,inside⟩))⟩
  exact (mem_keywords.mp known).resolve_left record

theorem visit_children_yields {Q : JsonValue → JsonValue → Prop} (path : String)
    (each : ∀ child ∈ children o, ∀ path, Yields (Q child) (visit child path)) :
    Yields (Visited Q o) (visit_children visit o path) := by
  rw [visit_children_eq]
  refine (yields_foldlM_modifyM (R := fun key => if key ∈ recordKeywords then RecordVisited Q else SchemasVisited Q)
    keywords_nodup o fun key known v held => ?_).mono fun o' changed => changed.mono fun key v v' related => ?_
  · obtain ⟨record,schemas⟩ := keyword_children each known held
    unfold visit_keyword
    split_ifs with kind
    · exact visit_record_yields path key (record kind)
    · exact visit_schemas_yields path key (schemas kind)
  · by_cases record : key ∈ recordKeywords
    · rw [if_pos (mem_keywords.mpr (.inl record)),if_pos record] at related
      rwa [if_pos record]
    · rw [if_neg record]
      by_cases schema : key ∈ schemaKeywords
      · rw [if_pos (mem_keywords.mpr (.inr schema)),if_neg record] at related
        rwa [if_pos schema]
      · rw [if_neg fun known => (mem_keywords.mp known).elim record schema] at related
        rwa [if_neg schema]

theorem visit_children_pure (keyed : JsonObject.Keyed o) (path : String)
    (each : ∀ child ∈ children o, ∀ path, visit child path = pure child) : visit_children visit o path = pure o := by
  rw [visit_children_eq]
  refine foldlM_modifyM_pure keyed fun key known v held => ?_
  obtain ⟨record,schemas⟩ := keyword_children each known held
  unfold visit_keyword
  split_ifs with kind
  · exact visit_record_pure path key (record kind)
  · exact visit_schemas_pure path key (schemas kind)

end

end Ferrin.Schema
