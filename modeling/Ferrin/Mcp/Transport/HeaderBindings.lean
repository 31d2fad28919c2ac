import Ferrin.Mcp.Transport.Headers

/-!
Which tool parameters are mirrored into headers. The visitor looks into members
and not into lists, where an annotation goes unnoticed.
-/
namespace Ferrin.Mcp.Transport
open List
open JsonValue (as_str)
open Result (bind_ok)

def is_http_token (text : String) : Bool :=
  text ≠ "" && text.toList.all fun c => c.isAlphanum || c ∈ "!#$%&'*+-.^_`|~".toList

structure Visitor where
  bindings : List HeaderBinding
  names : List String

def value_type (object : JsonObject) : Option HeaderValueType :=
  match (object.get "type").bind as_str with
  | some "boolean" => some .Boolean
  | some "integer" => some .Integer
  | some "string" => some .String
  | _ => none

def not_reachable : String := "x-mcp-header is not on a statically reachable property"
def not_a_token : String := "x-mcp-header must be a non-empty HTTP token"
def not_unique (name : String) : String := "x-mcp-header value \"" ++ name ++ "\" is not unique"
def not_scalar : String := "x-mcp-header can only annotate boolean, integer, or string properties"

/-- What `visit` does at an object before it goes on to the members. -/
def annotate (v : Visitor) (path : List String) (statically_reachable : Bool) (object : JsonObject) : Except String Visitor :=
  match object.get "x-mcp-header" with
  | none => .ok v
  | some header =>
    if !statically_reachable || path.isEmpty then .error not_reachable
    else match header.as_str.filter is_http_token with
      | none => .error not_a_token
      | some name =>
        if name.toLower ∈ v.names then .error (not_unique name)
        else match value_type object with
          | none => .error not_scalar
          | some value_type => .ok ⟨v.bindings ++ [⟨name,path,value_type⟩],v.names ++ [name.toLower]⟩

mutual

def visit (v : Visitor) (path : List String) (statically_reachable : Bool) : JsonValue → Except String Visitor
  | .object object => do
    visit_members (← annotate v path statically_reachable object) path statically_reachable object
  | _ => .ok v

def visit_members (v : Visitor) (path : List String) (statically_reachable : Bool) : JsonObject → Except String Visitor
  | [] => .ok v
  | (key,child) :: rest => do
    let v ← if key = "x-mcp-header" then .ok v
      else if key = "properties" then visit_named v path statically_reachable child
      else visit v path false child
    visit_members v path statically_reachable rest

/-- The member `properties`. Where it is no object, it has nothing to visit. -/
def visit_named (v : Visitor) (path : List String) (statically_reachable : Bool) : JsonValue → Except String Visitor
  | .object properties => visit_properties v path statically_reachable properties
  | _ => .ok v

def visit_properties (v : Visitor) (path : List String) (statically_reachable : Bool) :
    JsonObject → Except String Visitor
  | [] => .ok v
  | (property,schema) :: rest => do
    visit_properties (← visit v (path ++ [property]) statically_reachable schema) path statically_reachable rest

end

def header_bindings : (input_schema : JsonValue) → Except McpError (List HeaderBinding)
  | .object schema =>
    match visit ⟨[],[]⟩ [] true (.object schema) with
    | .ok v => .ok v.bindings
    | .error error => .error (.InvalidArgument error)
  | _ => .error (.InvalidArgument "inputSchema must be a JSON Schema object")

/-! ### Subschemas -/

/-- How a subschema is reached: through `properties` alone, in another way, or in a list. -/
inductive Place where
  | Direct
  | Indirect
  | Listed
  deriving DecidableEq

def Place.inner : Place → Place
  | .Listed => .Listed
  | _ => .Indirect

structure Subschema where
  path : List String
  place : Place
  object : JsonObject

mutual

/-- Each subschema once, in document order, with its path of properties. -/
def subschemas (path : List String) (place : Place) : JsonValue → List Subschema
  | .object object => ⟨path,place,object⟩ :: member_schemas path place object
  | .array items => item_schemas path items
  | _ => []

def member_schemas (path : List String) (place : Place) : JsonObject → List Subschema
  | [] => []
  | (key,child) :: rest =>
    (if key = "x-mcp-header" then []
      else if key = "properties" then named_schemas path place child
      else subschemas path place.inner child) ++ member_schemas path place rest

def named_schemas (path : List String) (place : Place) : JsonValue → List Subschema
  | .object properties => property_schemas path place properties
  | .array items => item_schemas path items
  | _ => []

def property_schemas (path : List String) (place : Place) : JsonObject → List Subschema
  | [] => []
  | (property,schema) :: rest => subschemas (path ++ [property]) place schema ++ property_schemas path place rest

def item_schemas (path : List String) : List JsonValue → List Subschema
  | [] => []
  | item :: rest => subschemas path .Listed item ++ item_schemas path rest

end

def Subschema.annotated (s : Subschema) : Bool := (s.object.get "x-mcp-header").isSome

def Subschema.binding (s : Subschema) : Option HeaderBinding := do
  let name ← ((s.object.get "x-mcp-header").bind as_str).filter is_http_token
  let value_type ← value_type s.object
  if s.place = .Direct ∧ s.path ≠ [] then some ⟨name,s.path,value_type⟩ else none

def HeaderBinding.lower (b : HeaderBinding) : String := b.header_name.toLower

/-- Every annotation makes a binding, and no two the same header. -/
def Sound (l : List Subschema) : Prop :=
  (∀ s ∈ l, s.annotated = true → s.binding.isSome) ∧ ((l.filterMap (·.binding)).map (·.lower)).Nodup

section
variable {s : Subschema} {l : List Subschema} {v w : Visitor}

def Subschema.visited (v : Visitor) (s : Subschema) : Except String Visitor := annotate v s.path (s.place = .Direct) s.object

theorem visited_ok : s.visited v = .ok w ↔ (s.annotated = false ∧ w = v) ∨
    ∃ b, s.binding = some b ∧ b.lower ∉ v.names ∧ w = ⟨v.bindings ++ [b],v.names ++ [b.lower]⟩ := by
  obtain ⟨path,place,object⟩ := s
  simp only [Subschema.visited,annotate,Subschema.annotated,Subschema.binding,HeaderBinding.lower]
  cases object.get "x-mcp-header" with
  | none => simp [eq_comm]
  | some header =>
    cases token : header.as_str.filter is_http_token with
    | none => cases place <;> cases path <;> simp [token]
    | some name =>
      cases value_type object <;> cases place <;> cases path <;> simp [token]
      all_goals split_ifs <;> simp_all [eq_comm]

theorem binding_annotated {b : HeaderBinding} (bound : s.binding = some b) : s.annotated = true := by
  unfold Subschema.binding at bound
  unfold Subschema.annotated
  cases found : s.object.get "x-mcp-header" with
  | none => simp [found] at bound
  | some => rfl

theorem binding_listed (listed : s.place = .Listed) : s.binding = none := by
  unfold Subschema.binding
  simp [listed]

/-- The annotations are taken one by one, and each header name once. -/
theorem foldlM_visited (distinct : v.names.Nodup) : l.foldlM Subschema.visited v = .ok w ↔
    (∀ s ∈ l, s.annotated = true → s.binding.isSome) ∧ (v.names ++ (l.filterMap (·.binding)).map (·.lower)).Nodup ∧
      w = ⟨v.bindings ++ l.filterMap (·.binding),v.names ++ (l.filterMap (·.binding)).map (·.lower)⟩ := by
  induction l generalizing v with
  | nil => simp [distinct,pure,Except.pure,@eq_comm _ v]
  | cons s rest ih =>
    rw [foldlM_cons,bind_ok]
    simp only [visited_ok]
    cases bound : s.binding with
    | none => simp [bound,ih distinct,and_assoc]
    | some b =>
      have annotated := binding_annotated bound
      by_cases taken : b.lower ∈ v.names
      · have repeated : ¬ (v.names ++ (b.lower :: (rest.filterMap (·.binding)).map (·.lower))).Nodup :=
          fun unique => (nodup_append.mp unique).2.2 _ taken _ mem_cons_self rfl
        simp [bound,annotated,taken,repeated]
      · have fresh : (v.names ++ [b.lower]).Nodup := nodup_append.mpr ⟨distinct,by simp,by
          rintro _ mem _ one rfl
          exact taken (List.mem_singleton.mp one ▸ mem)⟩
        simp [bound,annotated,taken,ih (v := ⟨v.bindings ++ [b],v.names ++ [b.lower]⟩) fresh]

/-! ### What is visited -/

mutual

theorem subschemas_listed (path : List String) : ∀ value, ∀ s ∈ subschemas path .Listed value, s.place = .Listed
  | .null | .bool _ | .number _ | .string _ => by simp [subschemas]
  | .array items => by rw [subschemas]; exact item_schemas_listed path items
  | .object object => by rw [subschemas]; exact forall_mem_cons.mpr ⟨rfl,member_schemas_listed path object⟩

theorem member_schemas_listed (path : List String) : ∀ object, ∀ s ∈ member_schemas path .Listed object, s.place = .Listed
  | [] => by simp [member_schemas]
  | (key,child) :: rest => by
    rw [member_schemas]
    refine forall_mem_append.mpr ⟨?_,member_schemas_listed path rest⟩
    split_ifs
    · simp
    · exact named_schemas_listed path child
    · exact subschemas_listed path child

theorem named_schemas_listed (path : List String) : ∀ value, ∀ s ∈ named_schemas path .Listed value, s.place = .Listed
  | .null | .bool _ | .number _ | .string _ => by simp [named_schemas]
  | .array items => by rw [named_schemas]; exact item_schemas_listed path items
  | .object properties => by rw [named_schemas]; exact property_schemas_listed path properties

theorem property_schemas_listed (path : List String) : ∀ object, ∀ s ∈ property_schemas path .Listed object, s.place = .Listed
  | [] => by simp [property_schemas]
  | (property,schema) :: rest => by
    rw [property_schemas]
    exact forall_mem_append.mpr ⟨subschemas_listed (path ++ [property]) schema,property_schemas_listed path rest⟩

theorem item_schemas_listed (path : List String) : ∀ items, ∀ s ∈ item_schemas path items, s.place = .Listed
  | [] => by simp [item_schemas]
  | item :: rest => by
    rw [item_schemas]
    exact forall_mem_append.mpr ⟨subschemas_listed path item,item_schemas_listed path rest⟩

end

def unlisted (l : List Subschema) : List Subschema := l.filter (·.place ≠ .Listed)

theorem unlisted_append (l m : List Subschema) : unlisted (l ++ m) = unlisted l ++ unlisted m := filter_append ..

theorem unlisted_items (path : List String) (items : List JsonValue) : unlisted (item_schemas path items) = [] :=
  filter_eq_nil_iff.mpr fun s mem => by simp [item_schemas_listed path items s mem]

def placeOf (statically_reachable : Bool) : Place := if statically_reachable then .Direct else .Indirect

theorem visited_placeOf (v : Visitor) (path : List String) (direct : Bool) (object : JsonObject) :
    Subschema.visited v ⟨path,placeOf direct,object⟩ = annotate v path direct object := by
  cases direct <;> rfl

mutual

/-- The visitor folds over the subschemas that are in no list. -/
theorem visit_eq : ∀ (v : Visitor) (path : List String) (direct : Bool) (value : JsonValue),
    visit v path direct value = (unlisted (subschemas path (placeOf direct) value)).foldlM Subschema.visited v
  | _,_,_,.null | _,_,_,.bool _ | _,_,_,.number _ | _,_,_,.string _ => rfl
  | _,path,_,.array items => by
    rw [subschemas,unlisted_items]
    rfl
  | v,path,direct,.object object => by
    rw [visit,subschemas,unlisted,filter_cons_of_pos (by cases direct <;> rfl),foldlM_cons,visited_placeOf]
    exact bind_congr fun w => visit_members_eq w path direct object

theorem visit_members_eq : ∀ (v : Visitor) (path : List String) (direct : Bool) (object : JsonObject),
    visit_members v path direct object = (unlisted (member_schemas path (placeOf direct) object)).foldlM Subschema.visited v
  | _,_,_,[] => rfl
  | v,path,direct,(key,child) :: rest => by
    have inner : (placeOf direct).inner = placeOf false := by cases direct <;> rfl
    rw [visit_members,member_schemas,unlisted_append,foldlM_append,inner]
    split_ifs
    · exact visit_members_eq v path direct rest
    · rw [visit_named_eq v path direct child]
      exact bind_congr fun w => visit_members_eq w path direct rest
    · rw [visit_eq v path false child]
      exact bind_congr fun w => visit_members_eq w path direct rest

theorem visit_named_eq : ∀ (v : Visitor) (path : List String) (direct : Bool) (value : JsonValue),
    visit_named v path direct value = (unlisted (named_schemas path (placeOf direct) value)).foldlM Subschema.visited v
  | _,_,_,.null | _,_,_,.bool _ | _,_,_,.number _ | _,_,_,.string _ => rfl
  | _,path,_,.array items => by
    rw [named_schemas,unlisted_items]
    rfl
  | v,path,direct,.object properties => by
    rw [visit_named,named_schemas]
    exact visit_properties_eq v path direct properties

theorem visit_properties_eq : ∀ (v : Visitor) (path : List String) (direct : Bool) (object : JsonObject),
    visit_properties v path direct object =
      (unlisted (property_schemas path (placeOf direct) object)).foldlM Subschema.visited v
  | _,_,_,[] => rfl
  | v,path,direct,(property,schema) :: rest => by
    rw [visit_properties,property_schemas,unlisted_append,foldlM_append,visit_eq v (path ++ [property]) direct schema]
    exact bind_congr fun w => visit_properties_eq w path direct rest

end

/-! ### Bindings and headers -/

def schemasOf (schema : JsonObject) : List Subschema := subschemas [] .Direct (.object schema)

theorem unlisted_bindings (l : List Subschema) : (unlisted l).filterMap (·.binding) = l.filterMap (·.binding) := by
  rw [unlisted,filterMap_filter]
  refine filterMap_congr fun s _ => ?_
  by_cases listed : s.place = .Listed
  · simp [listed,binding_listed listed]
  · simp [listed]

theorem sound_iff (l : List Subschema) : Sound l ↔ Sound (unlisted l) ∧ ∀ s ∈ l, s.annotated = true → s.place ≠ .Listed := by
  unfold Sound
  rw [unlisted_bindings]
  constructor
  · rintro ⟨all,unique⟩
    refine ⟨⟨fun s mem => all s (mem_of_mem_filter mem),unique⟩,fun s mem annotated listed => ?_⟩
    have bound := all s mem annotated
    rw [binding_listed listed] at bound
    cases bound
  · rintro ⟨⟨all,unique⟩,inside⟩
    exact ⟨fun s mem annotated => all s (mem_filter.mpr ⟨mem,by simpa using inside s mem annotated⟩) annotated,unique⟩

theorem header_bindings_ok {schema : JsonObject} {bindings : List HeaderBinding} :
    header_bindings (.object schema) = .ok bindings ↔
      Sound (unlisted (schemasOf schema)) ∧ bindings = (schemasOf schema).filterMap (·.binding) := by
  have folded := @foldlM_visited (unlisted (schemasOf schema)) ⟨[],[]⟩
  rw [header_bindings,visit_eq,Sound]
  simp only [nil_append,nodup_nil,forall_const,unlisted_bindings] at folded ⊢
  constructor
  · intro done
    split at done
    · rename_i v ran
      cases done
      obtain ⟨all,unique,rfl⟩ := folded.mp ran
      exact ⟨⟨all,unique⟩,rfl⟩
    · cases done
  · rintro ⟨⟨all,unique⟩,rfl⟩
    have ran := folded.mpr ⟨all,unique,rfl⟩
    split
    · rename_i v ran'
      cases ran.symm.trans ran'
      rfl
    · rename_i failed
      cases ran.symm.trans failed

/-- The argument that a binding mirrors, `null` left out. -/
def HeaderBinding.argument (b : HeaderBinding) (arguments : JsonObject) : Option JsonValue :=
  (value_at arguments b.path).filter (· ≠ .null)

def HeaderBinding.header (standard : List UInt8 → List Char) (integer_text : JsonNumber → Option String)
    (arguments : JsonObject) (b : HeaderBinding) : Option (String × List Char) :=
  ((b.argument arguments).bind (header_text integer_text b.value_type)).map fun text =>
    ("Mcp-Param-" ++ b.header_name,encode_header_value standard text.toList)

def Mirrors (standard : List UInt8 → List Char) (integer_text : JsonNumber → Option String) (arguments : JsonObject)
    (bindings : List HeaderBinding) : Except McpError (List (String × List Char)) → Prop
  | .ok headers => headers = bindings.filterMap (·.header standard integer_text arguments) ∧
      ∀ b ∈ bindings, ∀ value, b.argument arguments = some value → (header_text integer_text b.value_type value).isSome
  | .error error => ∃ b ∈ bindings, error = invalid_header_type b ∧
      ∃ value, b.argument arguments = some value ∧ header_text integer_text b.value_type value = none

theorem tool_headers_mirror (standard : List UInt8 → List Char) (integer_text : JsonNumber → Option String)
    (arguments : JsonObject) (bindings : List HeaderBinding) :
    Mirrors standard integer_text arguments bindings (tool_headers standard integer_text arguments bindings) := by
  induction bindings with
  | nil => simp [tool_headers,Mirrors]
  | cons b rest ih =>
    rw [tool_headers]
    split
    · rename_i none_
      have absent : b.argument arguments = none := none_
      cases others : tool_headers standard integer_text arguments rest <;> rw [others] at ih
      · obtain ⟨c,mem,wrong⟩ := ih
        exact ⟨c,mem_cons_of_mem b mem,wrong⟩
      · simpa [Mirrors,HeaderBinding.header,absent] using ih
    · rename_i value found
      have present : b.argument arguments = some value := found
      split
      · rename_i wrong
        exact ⟨b,mem_cons_self,rfl,value,present,wrong⟩
      · rename_i text right
        cases others : tool_headers standard integer_text arguments rest <;> rw [others] at ih
        · obtain ⟨c,mem,wrong⟩ := ih
          exact ⟨c,mem_cons_of_mem b mem,wrong⟩
        · obtain ⟨rfl,typed⟩ := ih
          exact ⟨by simp [HeaderBinding.header,present,right],by simpa [present,right] using typed⟩

structure Bound (standard : List UInt8 → List Char) (integer_text : JsonNumber → Option String) (schema : JsonObject) :
    Prop where
  accepted : (∃ bindings, header_bindings (.object schema) = .ok bindings) ↔ Sound (schemasOf schema)
  complete : ∀ bindings, header_bindings (.object schema) = .ok bindings →
    bindings = (schemasOf schema).filterMap (·.binding) ∧ ∀ arguments,
      Mirrors standard integer_text arguments bindings (tool_headers standard integer_text arguments bindings)

end

def listedHeader : JsonObject := [("allOf",.array [.object [("properties",.object
  [("region",.object [("type",.string "string"),("x-mcp-header",.string "Region")])])]])]

theorem eq_of_filterMap_eq {α β γ : Type} {key : α → β} {f g : α → Option γ} {l : List α} (distinct : (l.map key).Nodup)
    (same : (l.filterMap fun a => (f a).map (key a,·)) = l.filterMap fun a => (g a).map (key a,·)) :
    ∀ a ∈ l, f a = g a := by
  induction l with
  | nil => exact fun _ mem => by cases mem
  | cons a rest ih =>
    obtain ⟨fresh,distinct⟩ := nodup_cons.mp distinct
    have away {h : α → Option γ} {c : γ} {others : List (β × γ)} :
        (rest.filterMap fun b => (h b).map (key b,·)) ≠ (key a,c) :: others := by
      intro cons
      have mem : (key a,c) ∈ rest.filterMap fun b => (h b).map (key b,·) := cons ▸ mem_cons_self
      obtain ⟨b,inside,found⟩ := mem_filterMap.mp mem
      obtain ⟨_,_,pair⟩ := Option.map_eq_some_iff.mp found
      exact fresh (mem_map.mpr ⟨b,inside,(Prod.mk.inj pair).1⟩)
    cases first : f a <;> cases second : g a <;>
      simp only [filterMap_cons,first,second,Option.map_none,Option.map_some] at same
    · exact forall_mem_cons.mpr ⟨first.trans second.symm,ih distinct same⟩
    · exact absurd same away
    · exact absurd same.symm away
    · obtain ⟨head,tail⟩ := cons_eq_cons.mp same
      exact forall_mem_cons.mpr ⟨by rw [first,second,(Prod.mk.inj head).2],ih distinct tail⟩

/-- The headers of a call are legal, each has a name of its own, and they tell the arguments that they mirror. -/
theorem headers_determine (standard : List UInt8 → List Char) (lawful : Standard standard)
    (integer_text : JsonNumber → Option String) (schema : JsonObject) (bindings : List HeaderBinding)
    (accepted : header_bindings (.object schema) = .ok bindings) (first second : JsonObject)
    (headers : List (String × List Char)) (sent : tool_headers standard integer_text first bindings = .ok headers)
    (sent' : tool_headers standard integer_text second bindings = .ok headers) :
    (∀ header ∈ headers, Legal header.2) ∧ (headers.map (·.1)).Nodup ∧
      ∀ b ∈ bindings, (b.argument first).bind (header_text integer_text b.value_type) =
        (b.argument second).bind (header_text integer_text b.value_type) := by
  obtain ⟨⟨-,unique⟩,same⟩ := header_bindings_ok.mp accepted
  rw [unlisted_bindings,← same] at unique
  have mirrored := tool_headers_mirror standard integer_text first bindings
  have mirrored' := tool_headers_mirror standard integer_text second bindings
  rw [sent] at mirrored
  rw [sent'] at mirrored'
  obtain ⟨rfl,-⟩ := mirrored
  have distinct : (bindings.map fun b => "Mcp-Param-" ++ b.header_name).Nodup :=
    pairwise_map.mpr ((pairwise_map.mp unique).imp fun other same =>
      other (congrArg String.toLower ((String.append_right_inj _).mp same)))
  have cut (arguments : JsonObject) (b : HeaderBinding) : b.header standard integer_text arguments =
      (((b.argument arguments).bind (header_text integer_text b.value_type)).map
        fun text => encode_header_value standard text.toList).map ("Mcp-Param-" ++ b.header_name,·) := by
    rw [HeaderBinding.header,Option.map_map]
    rfl
  refine ⟨fun header mem => ?_,?_,fun b mem => ?_⟩
  · obtain ⟨b,-,found⟩ := mem_filterMap.mp mem
    obtain ⟨_,-,rfl⟩ := Option.map_eq_some_iff.mp found
    exact encode_header_value_legal lawful _
  · refine pairwise_map.mpr (pairwise_filterMap.mpr ((pairwise_map.mp distinct).imp ?_))
    intro b c other h found h' found'
    obtain ⟨_,-,rfl⟩ := Option.map_eq_some_iff.mp found
    obtain ⟨_,-,rfl⟩ := Option.map_eq_some_iff.mp found'
    exact other
  · have equal := mirrored'.1
    simp only [cut] at equal
    have texts := eq_of_filterMap_eq distinct equal b mem
    exact Option.map_injective (fun _ _ encoded => String.toList_inj.mp (encode_header_value_injective lawful encoded)) texts

/-- A region that is sent in base64. -/
theorem headers_determine_region : ∃ headers,
    tool_headers (Base64.encode true) (fun _ => none) [("region",.string "eu\n")] [⟨"Region",["region"],.String⟩] = .ok headers ∧
      ∀ header ∈ headers, Legal header.2 := by
  refine ⟨_,rfl,(headers_determine (Base64.encode true) standard_base64 (fun _ => none) [("properties",.object
    [("region",.object [("type",.string "string"),("x-mcp-header",.string "Region")])])]
    [⟨"Region",["region"],.String⟩] rfl [("region",.string "eu\n")] [("region",.string "eu\n")] _ rfl rfl).1⟩

end Ferrin.Mcp.Transport
