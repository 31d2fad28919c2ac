import Ferrin.Approval.Signature
import Ferrin.Json.Canonical
import Ferrin.Library.Base64

/-!
Fingerprints of tools and signatures of approvals. Under a digest without
collisions both tell apart exactly what differs by more than the order of keys
(`canonical_identifies`).
-/
namespace Ferrin
open List Canonical JsonObject
open Canonical (Holds Same)
open Approval (sign)

inductive Description where
  | Static (text : String)
  | Dynamic

structure PinnedTool where
  description : Option Description
  input_schema : JsonValue
  title : Option String

def description_record : Option Description → JsonValue
  | some (.Static text) => .object [("type",.string "string"),("value",.string text)]
  | some .Dynamic => .object [("type",.string "function")]
  | none => .object [("type",.string "none")]

def fingerprint_record (tool : PinnedTool) : JsonObject :=
  let record := JsonObject.insert [] "description" (description_record tool.description)
  let record := JsonObject.insert record "inputSchema" tool.input_schema
  match tool.title with
  | some title => JsonObject.insert record "title" (.string title)
  | none => record

def fingerprint_tools (p : Primitives) (tools : List (ToolName × PinnedTool)) : List (ToolName × String) :=
  tools.map fun (name,tool) => (name,hash_canonical p (.object (fingerprint_record tool)))

/-! ### Records -/

namespace Canonical

theorem Same.refl (p : Primitives) (v : JsonValue) : Same p v v := by
  induction v using depth_induction with
  | step v ih =>
    cases v with
    | null => exact .null
    | bool value => exact .bool value
    | number => exact .number rfl
    | string text => exact .string text
    | array =>
      refine .array rfl fun i x y first second => ?_
      obtain rfl := Option.some.inj (first.symm.trans second)
      exact ih x (JsonValue.depth_item (mem_of_getElem? first))
    | object =>
      refine .object (fun _ => rfl) fun key x y first second => ?_
      obtain rfl := Option.some.inj (first.symm.trans second)
      exact ih x (JsonValue.depth_get first)

section
variable {p : Primitives}

theorem same_string {a b : String} : Same p (.string a) (.string b) ↔ a = b := by
  constructor
  · intro same
    cases same
    rfl
  · rintro rfl
    exact .string a

theorem Same.get {xs ys : JsonObject} (same : Same p (.object xs) (.object ys)) {key : String} {x y : JsonValue}
    (first : xs.lookup key = some x) (second : ys.lookup key = some y) : Same p x y := by
  cases same with
  | object _ members => exact members key x y first second

theorem Same.keys {xs ys : JsonObject} (same : Same p (.object xs) (.object ys)) (key : String) :
    (xs.lookup key).isSome = (ys.lookup key).isSome := by
  cases same with
  | object keys => exact keys key

theorem same_description {d e : Option Description} : Same p (description_record d) (description_record e) ↔ d = e := by
  constructor
  · intro same
    match d,e with
    | none,none => rfl
    | some .Dynamic,some .Dynamic => rfl
    | some (.Static a),some (.Static b) =>
      rw [same_string.mp (same.get (show List.lookup "value" _ = _ from rfl) (show List.lookup "value" _ = _ from rfl))]
    | none,some .Dynamic | some .Dynamic,none | none,some (.Static _) | some (.Static _),none
    | some .Dynamic,some (.Static _) | some (.Static _),some .Dynamic =>
      have kind := same_string.mp (same.get (show List.lookup "type" _ = _ from rfl) (show List.lookup "type" _ = _ from rfl))
      exact absurd kind (by decide)
  · rintro rfl
    exact .refl p _

theorem lookup_record (tool : PinnedTool) (key : String) : (fingerprint_record tool).lookup key =
    if key = "title" then tool.title.map .string else if key = "inputSchema" then some tool.input_schema
    else if key = "description" then some (description_record tool.description) else none := by
  unfold fingerprint_record
  cases tool.title with
  | none =>
    simp only [lookup_insert,lookup_nil,Option.map_none]
    by_cases named : key = "title"
    · simp [named]
    · simp [named]
  | some => simp only [lookup_insert,lookup_nil,Option.map_some]

theorem same_record {s t : PinnedTool} : Same p (.object (fingerprint_record s)) (.object (fingerprint_record t)) ↔
    s.description = t.description ∧ Same p s.input_schema t.input_schema ∧ s.title = t.title := by
  constructor
  · intro same
    refine ⟨?_,?_,?_⟩
    · exact same_description.mp (same.get ((lookup_record s "description").trans rfl) ((lookup_record t "description").trans rfl))
    · exact same.get ((lookup_record s "inputSchema").trans rfl) ((lookup_record t "inputSchema").trans rfl)
    · have first : (fingerprint_record s).lookup "title" = s.title.map .string := lookup_record s "title"
      have second : (fingerprint_record t).lookup "title" = t.title.map .string := lookup_record t "title"
      have keys := same.keys "title"
      rw [first,second] at keys
      cases known : s.title <;> cases known' : t.title <;> simp only [known,known'] at first second keys
      · rfl
      · cases keys
      · cases keys
      · rw [same_string.mp (same.get first second)]
  · rintro ⟨description,schema,title⟩
    refine .object (fun key => ?_) fun key x y first second => ?_
    · rw [lookup_record,lookup_record,title]
      split_ifs <;> rfl
    · rw [lookup_record] at first second
      split_ifs at first second
      · rw [title] at first
        obtain rfl := Option.some.inj (first.symm.trans second)
        exact .refl p x
      · cases first
        cases second
        exact schema
      · cases first
        cases second
        exact same_description.mpr description

theorem holds_object {entries : JsonObject} (keyed : entries.Keyed) (each : ∀ entry ∈ entries, Holds entry.2) :
    Holds (.object entries) where
  keyed := JsonValue.keyed_object.mpr ⟨keyed,fun entry mem => (each entry mem).keyed⟩
  finite := entriesFinite_iff.mpr fun entry mem => (each entry mem).finite

theorem holds_string (text : String) : Holds (.string text) := ⟨.string text,trivial⟩

theorem holds_description (d : Option Description) : Holds (description_record d) := by
  unfold description_record
  split <;> exact holds_object (by simp [JsonObject.Keyed]) (by simp [holds_string])

theorem holds_record {tool : PinnedTool} (schema : Holds tool.input_schema) : Holds (.object (fingerprint_record tool)) := by
  have base : (insert (insert [] "description" (description_record tool.description)) "inputSchema"
      tool.input_schema).Keyed := (JsonObject.Keyed.nil.insert _ _).insert _ _
  have held : ∀ key v, (fingerprint_record tool).lookup key = some v → Holds v := by
    intro key v found
    rw [lookup_record] at found
    split_ifs at found
    · obtain ⟨title,-,rfl⟩ := Option.map_eq_some_iff.mp found
      exact holds_string title
    · cases found
      exact schema
    · cases found
      exact holds_description _
  have keyed : (fingerprint_record tool).Keyed := by
    unfold fingerprint_record
    cases tool.title with
    | none => exact base
    | some => exact base.insert _ _
  exact holds_object keyed fun entry member => held entry.1 entry.2 ((get_eq_some keyed).mpr member)

end

end Canonical

section
variable {p : Primitives}

theorem bytes_injective : Function.Injective bytes := by
  intro a b same
  refine String.toByteArray_inj.mp ?_
  exact ByteArray.ext (Array.toList_inj.mp same)

theorem hash_canonical_iff (floats : p.WritesFloats) (sha : Function.Injective p.sha256) (url : Function.Injective p.base64url)
    {v w : JsonValue} (first : Holds v) (second : Holds w) : hash_canonical p v = hash_canonical p w ↔ Same p v w := by
  unfold hash_canonical
  rw [url.eq_iff,sha.eq_iff,bytes_injective.eq_iff,canonical_iff floats first second]

namespace Approval

theorem payload_eq (fields : SignedFields) : payload p fields = String.ofList (write_compact p (.array
    ([SIGNATURE_DOMAIN,fields.approval_id,fields.tool_call_id,fields.tool_name,hash_canonical p fields.input].map .string))) := by
  rfl

theorem payload_iff (floats : p.WritesFloats) {s t : SignedFields} : payload p s = payload p t ↔
    s.approval_id = t.approval_id ∧ s.tool_call_id = t.tool_call_id ∧ s.tool_name = t.tool_name ∧
      hash_canonical p s.input = hash_canonical p t.input := by
  rw [payload_eq,payload_eq,String.ofList_inj,write_compact_eq_iff floats (by simp [FloatsFinite,ItemsFinite])
    (by simp [FloatsFinite,ItemsFinite])]
  simp [denoted,denoted_items,String.toList_inj]

theorem sign_iff (floats : p.WritesFloats) (sha : Function.Injective p.sha256) (url : Function.Injective p.base64url)
    {secret : List UInt8} (hmac : Function.Injective (p.hmac_sha256 secret)) {s t : SignedFields} (first : Holds s.input)
    (second : Holds t.input) : sign p secret s = sign p secret t ↔
      s.approval_id = t.approval_id ∧ s.tool_call_id = t.tool_call_id ∧ s.tool_name = t.tool_name ∧ Same p s.input t.input := by
  unfold sign
  rw [url.eq_iff,hmac.eq_iff,bytes_injective.eq_iff,payload_iff floats,hash_canonical_iff floats sha url first second]

end Approval

/-- Canonical texts tell apart what differs by more than the order of keys, and nothing else; so do fingerprints, in the
    schema beside the description and the title, and signatures, in the input beside the ids and the name. -/
theorem canonical_identifies (floats : p.WritesFloats) {v w : JsonValue} (first : Holds v) (second : Holds w) :
    (canonical_json p v = canonical_json p w ↔ Same p v w) ∧
    (Function.Injective p.sha256 → Function.Injective p.base64url →
      (∀ (name : ToolName) (d e : Option Description) (t u : Option String),
        fingerprint_tools p [(name,⟨d,v,t⟩)] = fingerprint_tools p [(name,⟨e,w,u⟩)] ↔ d = e ∧ Same p v w ∧ t = u) ∧
      ∀ secret, Function.Injective (p.hmac_sha256 secret) → ∀ (a b : ApprovalId) (c d : ToolCallId) (m n : ToolName),
        sign p secret ⟨a,c,m,v⟩ = sign p secret ⟨b,d,n,w⟩ ↔ a = b ∧ c = d ∧ m = n ∧ Same p v w) := by
  refine ⟨canonical_iff floats first second,fun sha url => ⟨fun name d e t u => ?_,fun secret hmac a b c d m n =>
    Approval.sign_iff floats sha url hmac first second⟩⟩
  have digests := hash_canonical_iff floats sha url (@holds_record ⟨d,v,t⟩ first)
    (@holds_record ⟨e,w,u⟩ second)
  rw [same_record] at digests
  simpa [fingerprint_tools] using digests

end

/-- Digests that hide nothing. -/
def transparent : Primitives :=
  ⟨fun _ => ['0'],id,fun _ data => data,fun data => String.ofList (Base64.encode false data),fun text => Base64.decode false text.toList⟩

def forecast : JsonObject := [("city",.string "Oslo"),("days",.number (.PosInt 2))]

/-- Turning the entries round changes neither the fingerprint nor the signature. -/
theorem canonical_identifies_forecast :
    fingerprint_tools transparent [("weather",⟨none,.object forecast,none⟩)] =
        fingerprint_tools transparent [("weather",⟨none,.object forecast.reverse,none⟩)] ∧
      sign transparent [7] ⟨"approval-1","call-1","weather",.object forecast⟩ =
        sign transparent [7] ⟨"approval-1","call-1","weather",.object forecast.reverse⟩ := by
  have floats : transparent.WritesFloats := fun _ _ => JsonText.number_toDigits 0
  have url : Function.Injective transparent.base64url := by
    intro a b same
    exact Base64.encode_injective false (String.ofList_inj.mp same)
  have entries : ∀ entry ∈ forecast, Holds entry.2 := by
    simp only [forecast,forall_mem_cons,not_mem_nil,false_implies,implies_true,and_true]
    exact ⟨holds_string "Oslo",.number _,trivial⟩
  have first : Holds (.object forecast) := holds_object (by simp [JsonObject.Keyed,forecast]) entries
  have second : Holds (.object forecast.reverse) :=
    holds_object (by simp [JsonObject.Keyed,forecast]) fun entry member => entries entry (List.mem_reverse.mp member)
  have same : Same transparent (.object forecast) (.object forecast.reverse) :=
    (denoted_sorted_iff first.keyed second.keyed).mp rfl
  obtain ⟨-,digests⟩ := canonical_identifies floats first second
  obtain ⟨fingerprints,signatures⟩ := digests Function.injective_id url
  exact ⟨(fingerprints "weather" none none none none).mpr ⟨rfl,same,rfl⟩,
    (signatures [7] Function.injective_id _ _ _ _ _ _).mpr ⟨rfl,rfl,rfl,same⟩⟩

end Ferrin
