import Ferrin.Mcp.Client

/-!
JSON-RPC 2.0 messages as JSON values. A struct is read from an object by the names
of its fields and from an array by their order; a field that is not required may be
missing or null.
-/
namespace Ferrin.Mcp.JsonRpc
open JsonValue Option
open JsonObject (get insert)
open JsonValue (as_object)

inductive RequestId where
  | Number (number : Int64)
  | String (text : String)
  deriving DecidableEq

structure JsonRpcErrorObject where
  code : Int64
  message : String
  data : Option JsonValue

inductive JsonRpcMessage where
  | Request (id : RequestId) (method : String) (params : Option JsonObject)
  | Notification (method : String) (params : Option JsonObject)
  | Response (id : RequestId) (result : JsonObject)
  | Error (id : Option RequestId) (error : JsonRpcErrorObject)

structure Envelope where
  jsonrpc : String
  id : Option RequestId
  method : Option String
  params : Option JsonObject
  result : Option JsonObject
  error : Option JsonRpcErrorObject

def JSONRPC_VERSION : String := "2.0"

/-! ### Writing -/

def from_i64 (n : Int64) : JsonValue := .number (if n < 0 then .NegInt n else .PosInt n.toUInt64)

def RequestId.to_value : RequestId → JsonValue
  | .Number n => from_i64 n
  | .String text => .string text

def JsonRpcErrorObject.to_value (error : JsonRpcErrorObject) : JsonValue :=
  .object ([("code",from_i64 error.code),("message",.string error.message)] ++
    (error.data.map fun data => ("data",data)).toList)

def JsonRpcMessage.to_json (message : JsonRpcMessage) : JsonValue :=
  let object := insert [] "jsonrpc" (.string JSONRPC_VERSION)
  .object (match message with
    | .Request id method params =>
      let object := (object.insert "id" id.to_value).insert "method" (.string method)
      params.elim object fun params => object.insert "params" (.object params)
    | .Notification method params =>
      let object := object.insert "method" (.string method)
      params.elim object fun params => object.insert "params" (.object params)
    | .Response id result => (object.insert "id" id.to_value).insert "result" (.object result)
    | .Error id error =>
      (object.insert "id" (id.elim .null RequestId.to_value)).insert "error" error.to_value)

def read_i64 : JsonValue → Option Int64
  | .number (.PosInt n) => if n.toNat < 9223372036854775808 then some n.toInt64 else none
  | .number (.NegInt n) => some n
  | _ => none

/-- An untagged enumeration: the first variant that can be read. -/
def read_id (value : JsonValue) : Option RequestId :=
  match read_i64 value with
  | some n => some (.Number n)
  | none => value.as_str.map .String

def read_optional {α : Type} (read : JsonValue → Option α) : JsonValue → Option (Option α)
  | .null => some none
  | value => (read value).map some

def read_field {α : Type} (read : JsonValue → Option α) (field : Option JsonValue) : Option (Option α) :=
  field.elim (some none) (read_optional read)

def fields (names : List String) : JsonValue → Option (List (Option JsonValue))
  | .object entries => some (names.map (get entries))
  | .array items => if items.length ≤ names.length then some (names.mapIdx fun i _ => items[i]?) else none
  | _ => none

def read_error (value : JsonValue) : Option JsonRpcErrorObject := do
  match ← fields ["code","message","data"] value with
  | [code,message,data] => do
    let code ← code.bind read_i64
    let message ← message.bind JsonValue.as_str
    let data ← read_field some data
    some ⟨code,message,data⟩
  | _ => none

def read_envelope (value : JsonValue) : Option Envelope := do
  match ← fields ["jsonrpc","id","method","params","result","error"] value with
  | [jsonrpc,id,method,params,result,error] => do
    let jsonrpc ← jsonrpc.bind JsonValue.as_str
    let id ← read_field read_id id
    let method ← read_field JsonValue.as_str method
    let params ← read_field as_object params
    let result ← read_field as_object result
    let error ← read_field read_error error
    some ⟨jsonrpc,id,method,params,result,error⟩
  | _ => none

def classify (e : Envelope) : Except McpError JsonRpcMessage :=
  if e.jsonrpc ≠ JSONRPC_VERSION then .error (.Protocol s!"unsupported JSON-RPC version '{e.jsonrpc}'")
  else
    match e.method,e.id,e.result,e.error with
    | some method,some id,none,none => .ok (.Request id method e.params)
    | some method,none,none,none => .ok (.Notification method e.params)
    | none,some id,some result,none => .ok (.Response id result)
    | none,id,none,some error => .ok (.Error id error)
    | _,_,_,_ =>
      .error (.Protocol "invalid JSON-RPC message: expected a request, notification, result or error")

/-- `from_json`, with the text by which a value of another type is refused. -/
def from_json (refusal : JsonValue → String) (value : JsonValue) : Except McpError JsonRpcMessage :=
  match read_envelope value with
  | none => .error (.Protocol s!"invalid JSON-RPC message: {refusal value}")
  | some envelope => classify envelope

theorem toNat_of_nonneg {n : Int64} (nonneg : ¬ n < 0) : n.toUInt64.toNat < 9223372036854775808 := by
  rw [Int64.lt_iff_toInt_lt] at nonneg
  have value : n.toInt = if 2 * n.toBitVec.toNat < 2 ^ 64 then (n.toBitVec.toNat : Int) else n.toBitVec.toNat - (2 ^ 64 : Nat) :=
    BitVec.toInt_eq_toNat_cond _
  have same : n.toBitVec.toNat = n.toUInt64.toNat := rfl
  have bound := n.toUInt64.toNat_lt
  have zero : (0 : Int64).toInt = 0 := rfl
  rw [zero,value,same] at nonneg
  split at nonneg <;> omega

theorem read_i64_from (n : Int64) : read_i64 (from_i64 n) = some n := by
  rw [from_i64]
  split
  · rfl
  · rename_i nonneg
    exact if_pos (toNat_of_nonneg nonneg)

theorem read_id_to_value (id : RequestId) : read_id id.to_value = some id := by
  cases id with
  | Number => rw [RequestId.to_value,read_id,read_i64_from]
  | String => rfl

theorem read_optional_of {α : Type} {read : JsonValue → Option α} {value : JsonValue} {a : α} (filled : value ≠ .null)
    (given : read value = some a) : read_optional read value = some (some a) := by
  cases value with
  | null => exact absurd rfl filled
  | _ => exact congrArg (Option.map some) given

@[simp] theorem read_field_null {α : Type} (read : JsonValue → Option α) : read_field read (some .null) = some none := rfl

@[simp] theorem read_field_object (entries : JsonObject) :
    read_field as_object (some (.object entries)) = some (some entries) := rfl

@[simp] theorem read_field_string (text : String) :
    read_field JsonValue.as_str (some (.string text)) = some (some text) := rfl

@[simp] theorem read_field_missing {α : Type} (read : JsonValue → Option α) : read_field read none = some none := rfl

@[simp] theorem read_field_id (id : RequestId) : read_field read_id (some id.to_value) = some (some id) := by
  refine read_optional_of ?_ (read_id_to_value id)
  cases id <;> simp [RequestId.to_value,from_i64]

theorem read_error_to_value {error : JsonRpcErrorObject} (not_null : error.data ≠ some .null) :
    read_error error.to_value = some error := by
  obtain ⟨code,message,data⟩ := error
  cases data with
  | none =>
    have written : fields ["code","message","data"] (JsonRpcErrorObject.to_value ⟨code,message,none⟩) =
        some [some (from_i64 code),some (.string message),none] := rfl
    rw [read_error,written]
    simp [read_i64_from,as_str,read_field]
  | some value =>
    have written : fields ["code","message","data"] (JsonRpcErrorObject.to_value ⟨code,message,some value⟩) =
        some [some (from_i64 code),some (.string message),some value] := rfl
    have given : read_optional some value = some (some value) :=
      read_optional_of (fun same => not_null (congrArg some same)) rfl
    rw [read_error,written]
    simp [read_i64_from,as_str,read_field,given]

def JsonRpcMessage.envelope : JsonRpcMessage → Envelope
  | .Request id method params => ⟨JSONRPC_VERSION,some id,some method,params,none,none⟩
  | .Notification method params => ⟨JSONRPC_VERSION,none,some method,params,none,none⟩
  | .Response id result => ⟨JSONRPC_VERSION,some id,none,none,some result,none⟩
  | .Error id error => ⟨JSONRPC_VERSION,id,none,none,none,some error⟩

theorem classify_envelope (message : JsonRpcMessage) : classify message.envelope = .ok message := by
  cases message with
  | Error id => cases id <;> rfl
  | _ => rfl

def JsonRpcMessage.Plain : JsonRpcMessage → Prop
  | .Error _ error => error.data ≠ some .null
  | _ => True

theorem read_envelope_fields {value : JsonValue} {jsonrpc id method params result error : Option JsonValue}
    (written : fields ["jsonrpc","id","method","params","result","error"] value =
      some [jsonrpc,id,method,params,result,error]) :
    read_envelope value = (jsonrpc.bind JsonValue.as_str).bind fun jsonrpc =>
      (read_field read_id id).bind fun id => (read_field JsonValue.as_str method).bind fun method =>
      (read_field as_object params).bind fun params => (read_field as_object result).bind fun result =>
      (read_field read_error error).bind fun error => some ⟨jsonrpc,id,method,params,result,error⟩ := by
  rw [read_envelope,written]
  rfl

theorem read_envelope_to_json {message : JsonRpcMessage} (plain : message.Plain) :
    read_envelope message.to_json = some message.envelope := by
  cases message with
  | Request id method params =>
    cases params with
    | none =>
      rw [read_envelope_fields (by rfl : fields _ _ = some [some (.string JSONRPC_VERSION),some id.to_value,
        some (.string method),none,none,none])]
      simp [as_str,JsonRpcMessage.envelope]
    | some params =>
      rw [read_envelope_fields (by rfl : fields _ _ = some [some (.string JSONRPC_VERSION),some id.to_value,
        some (.string method),some (.object params),none,none])]
      simp [as_str,JsonRpcMessage.envelope]
  | Notification method params =>
    cases params with
    | none =>
      rw [read_envelope_fields (by rfl : fields _ _ = some [some (.string JSONRPC_VERSION),none,
        some (.string method),none,none,none])]
      simp [as_str,JsonRpcMessage.envelope]
    | some params =>
      rw [read_envelope_fields (by rfl : fields _ _ = some [some (.string JSONRPC_VERSION),none,
        some (.string method),some (.object params),none,none])]
      simp [as_str,JsonRpcMessage.envelope]
  | Response id result =>
    rw [read_envelope_fields (by rfl : fields _ _ = some [some (.string JSONRPC_VERSION),some id.to_value,none,none,
      some (.object result),none])]
    simp [as_str,JsonRpcMessage.envelope]
  | Error id error =>
    have payload : read_field read_error (some error.to_value) = some (some error) :=
      read_optional_of (by simp [JsonRpcErrorObject.to_value]) (read_error_to_value plain)
    cases id with
    | none =>
      rw [read_envelope_fields (by rfl : fields _ _ = some [some (.string JSONRPC_VERSION),some .null,none,none,none,
        some error.to_value])]
      simp [payload,as_str,JsonRpcMessage.envelope]
    | some id =>
      rw [read_envelope_fields (by rfl : fields _ _ = some [some (.string JSONRPC_VERSION),some id.to_value,none,none,
        none,some error.to_value])]
      simp [payload,as_str,JsonRpcMessage.envelope]

theorem from_json_to_json (refusal : JsonValue → String) {message : JsonRpcMessage} (plain : message.Plain) :
    from_json refusal message.to_json = .ok message := by
  rw [from_json,read_envelope_to_json plain]
  exact classify_envelope message

def IsInteger (value : JsonValue) : Prop :=
  (∃ n : UInt64, n.toNat < 9223372036854775808 ∧ value = .number (.PosInt n)) ∨ ∃ n, value = .number (.NegInt n)

def IsString (value : JsonValue) : Prop := ∃ text, value = .string text
def IsObject (value : JsonValue) : Prop := ∃ entries, value = .object entries
def IsId (value : JsonValue) : Prop := IsInteger value ∨ IsString value

def IsErrorPayload (value : JsonValue) : Prop :=
  (∃ entries, value = .object entries ∧ (∃ code, get entries "code" = some code ∧ IsInteger code) ∧
    ∃ message, get entries "message" = some message ∧ IsString message) ∨
  ∃ code message data, value = .array (code :: message :: data) ∧ IsInteger code ∧ IsString message ∧ data.length ≤ 1

/-- A member that is neither missing nor null. -/
def Filled (o : JsonObject) (key : String) : Prop := ∃ value, o.get key = some value ∧ value ≠ .null

def Member (o : JsonObject) (key : String) (type : JsonValue → Prop) : Prop :=
  ∀ value, o.get key = some value → value ≠ .null → type value

structure Typed (o : JsonObject) : Prop where
  version : o.get "jsonrpc" = some (.string JSONRPC_VERSION)
  id : Member o "id" IsId
  method : Member o "method" IsString
  params : Member o "params" IsObject
  result : Member o "result" IsObject
  error : Member o "error" IsErrorPayload

inductive Kind where
  | Request
  | Notification
  | Response
  | Error

def JsonRpcMessage.kind : JsonRpcMessage → Kind
  | .Request _ _ _ => .Request
  | .Notification _ _ => .Notification
  | .Response _ _ => .Response
  | .Error _ _ => .Error

/-- The members that the four shapes have and lack. -/
def Discriminated (o : JsonObject) : Kind → Prop
  | .Request => Filled o "method" ∧ Filled o "id" ∧ ¬ Filled o "result" ∧ ¬ Filled o "error"
  | .Notification => Filled o "method" ∧ ¬ Filled o "id" ∧ ¬ Filled o "result" ∧ ¬ Filled o "error"
  | .Response => ¬ Filled o "method" ∧ Filled o "id" ∧ Filled o "result" ∧ ¬ Filled o "error"
  | .Error => ¬ Filled o "method" ∧ ¬ Filled o "result" ∧ Filled o "error"

def HasShape (o : JsonObject) (kind : Kind) : Prop := Typed o ∧ Discriminated o kind

section
variable {α : Type} {read : JsonValue → Option α} {type : JsonValue → Prop} {o : JsonObject} {key : String}

theorem discriminated_unique {first second : Kind} (one : Discriminated o first) (other : Discriminated o second) :
    first = second := by
  cases first <;> cases second <;> simp_all [Discriminated]

def Reads (read : JsonValue → Option α) (type : JsonValue → Prop) : Prop := ∀ value, (read value).isSome ↔ type value

theorem reads_integer : Reads read_i64 IsInteger := by
  intro value
  unfold read_i64 IsInteger
  split
  · rename_i n
    split <;> simp_all
  · simp
  · rename_i not_pos not_neg
    simp only [isSome_none,Bool.false_eq_true,false_iff,not_or,not_exists,not_and]
    exact ⟨fun n _ same => not_pos n same,fun n same => not_neg n same⟩

theorem reads_string : Reads JsonValue.as_str IsString := by
  intro value
  cases value <;> simp [as_str,IsString]

theorem reads_object : Reads as_object IsObject := by
  intro value
  cases value <;> simp [as_object,IsObject]

theorem reads_id : Reads read_id IsId := by
  intro value
  have integer := reads_integer value
  have string := reads_string value
  rw [read_id,IsId,← integer,← string]
  cases read_i64 value <;> simp

theorem bind_isSome_of {field : Option JsonValue} (reads : Reads read type) :
    (field.bind read).isSome ↔ ∃ value, field = some value ∧ type value := by
  cases field with
  | none => simp
  | some value => simpa using reads value

theorem read_error_isSome {value : JsonValue} {code message data : Option JsonValue}
    (given : fields ["code","message","data"] value = some [code,message,data]) :
    (read_error value).isSome ↔ (∃ v, code = some v ∧ IsInteger v) ∧ ∃ v, message = some v ∧ IsString v := by
  have always : ∃ a, read_field some data = some a := by
    cases data with
    | none => exact ⟨_,rfl⟩
    | some v => cases v <;> exact ⟨_,rfl⟩
  obtain ⟨a,here⟩ := always
  rw [← bind_isSome_of reads_integer,← bind_isSome_of reads_string,read_error,given]
  cases first : code.bind read_i64 <;> cases second : message.bind as_str <;> simp [first,second,here]

theorem reads_error : Reads read_error IsErrorPayload := by
  intro value
  cases value with
  | object entries =>
    rw [read_error_isSome (by rfl : fields _ (.object entries) = some [get entries "code",
      get entries "message",get entries "data"])]
    simp [IsErrorPayload]
  | array items =>
    rcases items with _ | ⟨code,_ | ⟨message,_ | ⟨data,_ | ⟨more,rest⟩⟩⟩⟩
    · rw [read_error_isSome (by rfl : fields _ _ = some [none,none,none])]
      simp [IsErrorPayload]
    · rw [read_error_isSome (by rfl : fields _ _ = some [some code,none,none])]
      simp [IsErrorPayload]
    · rw [read_error_isSome (by rfl : fields _ _ = some [some code,some message,none])]
      simp [IsErrorPayload]
    · rw [read_error_isSome (by rfl : fields _ _ = some [some code,some message,some data])]
      simp [IsErrorPayload]
    · have refused : read_error (.array (code :: message :: data :: more :: rest)) = none := by
        rw [read_error,fields,if_neg (by simp)]
        rfl
      rw [refused]
      simp [IsErrorPayload]
  | _ => simp [read_error,fields,IsErrorPayload]

theorem read_member_isSome (reads : Reads read type) : (read_field read (o.get key)).isSome ↔ Member o key type := by
  unfold Member
  cases o.get key with
  | none => simp
  | some value =>
    simp only [some.injEq,forall_eq']
    by_cases null : value = .null
    · subst null
      simp
    · have same : read_field read (some value) = (read value).map some := by
        cases value with
        | null => exact absurd rfl null
        | _ => rfl
      rw [same,isSome_map,reads value]
      simp [null]

theorem read_member_filled {found : Option α} (given : read_field read (o.get key) = some found) :
    found.isSome ↔ Filled o key := by
  unfold Filled
  cases here : o.get key with
  | none =>
    rw [here] at given
    cases given
    simp
  | some value =>
    rw [here] at given
    by_cases null : value = .null
    · subst null
      cases given
      simp
    · have same : read_field read (some value) = (read value).map some := by
        cases value with
        | null => exact absurd rfl null
        | _ => rfl
      rw [same] at given
      obtain ⟨a,_,rfl⟩ := Option.map_eq_some_iff.mp given
      simp [null]

structure Read (o : JsonObject) (e : Envelope) : Prop where
  jsonrpc : (o.get "jsonrpc").bind JsonValue.as_str = some e.jsonrpc
  id : read_field read_id (o.get "id") = some e.id
  method : read_field JsonValue.as_str (o.get "method") = some e.method
  params : read_field as_object (o.get "params") = some e.params
  result : read_field as_object (o.get "result") = some e.result
  error : read_field read_error (o.get "error") = some e.error

theorem read_envelope_object {e : Envelope} : read_envelope (.object o) = some e ↔ Read o e := by
  rw [read_envelope_fields (by rfl : fields _ (.object o) = some [o.get "jsonrpc",o.get "id",o.get "method",
    o.get "params",o.get "result",o.get "error"])]
  simp only [bind_eq_some_iff,some.injEq]
  constructor
  · rintro ⟨_,jsonrpc,_,id,_,method,_,params,_,result,_,error,rfl⟩
    exact ⟨Option.bind_eq_some_iff.mpr jsonrpc,id,method,params,result,error⟩
  · intro all
    exact ⟨_,Option.bind_eq_some_iff.mp all.jsonrpc,_,all.id,_,all.method,_,all.params,_,all.result,_,all.error,rfl⟩

theorem typed_iff : Typed o ↔ ∃ e, Read o e ∧ e.jsonrpc = JSONRPC_VERSION := by
  constructor
  · intro typed
    obtain ⟨id,one⟩ := Option.isSome_iff_exists.mp ((read_member_isSome reads_id).mpr typed.id)
    obtain ⟨method,two⟩ := Option.isSome_iff_exists.mp ((read_member_isSome reads_string).mpr typed.method)
    obtain ⟨params,three⟩ := Option.isSome_iff_exists.mp ((read_member_isSome reads_object).mpr typed.params)
    obtain ⟨result,four⟩ := Option.isSome_iff_exists.mp ((read_member_isSome reads_object).mpr typed.result)
    obtain ⟨error,five⟩ := Option.isSome_iff_exists.mp ((read_member_isSome reads_error).mpr typed.error)
    exact ⟨⟨JSONRPC_VERSION,id,method,params,result,error⟩,⟨by rw [typed.version]; rfl,one,two,three,four,five⟩,rfl⟩
  · rintro ⟨e,all,version⟩
    refine ⟨?_,(read_member_isSome reads_id).mp ?_,(read_member_isSome reads_string).mp ?_,
      (read_member_isSome reads_object).mp ?_,(read_member_isSome reads_object).mp ?_,
      (read_member_isSome reads_error).mp ?_⟩
    · obtain ⟨value,here,text⟩ := Option.bind_eq_some_iff.mp (version ▸ all.jsonrpc)
      cases value with
      | string =>
        cases text
        exact here
      | _ => cases text
    · rw [all.id]; rfl
    · rw [all.method]; rfl
    · rw [all.params]; rfl
    · rw [all.result]; rfl
    · rw [all.error]; rfl

theorem classify_kind {e : Envelope} (all : Read o e) (version : e.jsonrpc = JSONRPC_VERSION) (kind : Kind) :
    (∃ message, classify e = .ok message ∧ message.kind = kind) ↔ Discriminated o kind := by
  have id := read_member_filled all.id
  have method := read_member_filled all.method
  have result := read_member_filled all.result
  have error := read_member_filled all.error
  obtain ⟨_,id',method',_,result',error'⟩ := e
  subst version
  rw [classify,if_neg (fun different => different rfl)]
  cases kind <;> simp only [Discriminated,← id,← method,← result,← error] <;>
    cases method' <;> cases id' <;> cases result' <;> cases error' <;> simp [JsonRpcMessage.kind]

theorem from_json_kind (refusal : JsonValue → String) (kind : Kind) :
    (∃ message, from_json refusal (.object o) = .ok message ∧ message.kind = kind) ↔ HasShape o kind := by
  rw [HasShape,typed_iff,from_json]
  constructor
  · rintro ⟨message,accepted,same⟩
    cases envelope : read_envelope (.object o) with
    | none =>
      rw [envelope] at accepted
      cases accepted
    | some e =>
      rw [envelope] at accepted
      have classified : classify e = .ok message := accepted
      have all := read_envelope_object.mp envelope
      have version : e.jsonrpc = JSONRPC_VERSION := by
        by_contra different
        rw [classify,if_pos different] at classified
        cases classified
      exact ⟨⟨e,all,version⟩,(classify_kind all version kind).mp ⟨message,accepted,same⟩⟩
  · rintro ⟨⟨e,all,version⟩,discriminated⟩
    rw [read_envelope_object.mpr all]
    exact (classify_kind all version kind).mpr discriminated

end

end Ferrin.Mcp.JsonRpc
