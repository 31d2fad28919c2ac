import Ferrin.Json.Pointer
import Ferrin.Json.Positions
import Ferrin.Library.Encoded

/-!
The schema positions of a JSON Schema, and local JSON pointers that follow
schemas which a transform has moved.
-/
namespace Ferrin.Schema
open JsonObject List Encoded
open String (ofList utf8EncodeChar)

/-! ### Paths -/

/-- `str::replace` of a character. -/
def replaceChar (c : Char) (by_ : List Char) (text : List Char) : List Char :=
  text.flatMap fun other => if other = c then by_ else [other]

def child_path (parent name : String) : String :=
  parent ++ "/" ++ ofList (replaceChar '/' ['~','1'] (replaceChar '~' ['~','0'] name.toList))

def recordKeywords : List String :=
  ["properties","patternProperties","definitions","$defs","dependentSchemas","dependencies"]

def schemaKeywords : List String :=
  ["items","additionalItems","additionalProperties","anyOf","allOf","oneOf","prefixItems","not","if","then","else",
    "contains","propertyNames","unevaluatedItems","unevaluatedProperties"]

section
variable {m : Type → Type} [Monad m] (visit : JsonValue → String → m JsonValue)

/-- Draft-07 property dependencies are arrays of names, not schemas. -/
def visit_record (path key : String) : JsonValue → m JsonValue
  | .object children => .object <$> children.mapM fun (name,child) =>
    if child.is_array then pure (name,child) else (name,·) <$> visit child (child_path (child_path path key) name)
  | other => pure other

def visit_schemas (path key : String) : JsonValue → m JsonValue
  | .array children => .array <$> children.zipIdx.mapM fun (child,index) =>
    visit child (child_path (child_path path key) (toString index))
  | child => visit child (child_path path key)

/-- Visits schema positions without interpreting defaults or examples as schemas. -/
def visit_children (object : JsonObject) (path : String) : m JsonObject := do
  let object ← recordKeywords.foldlM (fun object key => object.modifyM key (visit_record visit path key)) object
  schemaKeywords.foldlM (fun object key => object.modifyM key (visit_schemas visit path key)) object

end

structure Urls (Url : Type) where
  parse : String → Option Url
  join : Url → String → Option Url
  fragment : Url → Option String
  /-- `set_fragment(None)`. -/
  without_fragment : Url → Url

inductive IdKeyword where
  | Modern
  | Draft04

/-- `strip_prefix` of a string. -/
def stripPrefix (start text : String) : Option String :=
  (text.toList.dropPrefix? start.toList).map ofList

def slashed (suffix : String) : Bool := suffix = "" ∨ suffix.toList.head? = some '/'

def relocate (path start target : String) : String :=
  match stripPrefix start path with
  | some suffix => if slashed suffix then target ++ suffix else path
  | none => path

def decode_fragment (fragment : String) : Option String :=
  (JsonPointer.percentDecode (JsonPointer.bytes fragment)).bind fun bytes => String.fromUTF8? ⟨bytes.toArray⟩

def HEX : List Char := ['0','1','2','3','4','5','6','7','8','9','A','B','C','D','E','F']

/-- The characters of a fragment that stand for themselves. -/
def isPlain (c : Char) : Bool := c.isAlphanum || c ∈ "-._~!$&'()*+,;=:@/?".toList

def encodeByte (byte : UInt8) : List Char :=
  let c := Char.ofNat byte.toNat
  if isPlain c then [c] else ['%',HEX.getD (byte.toNat / 16) '0',HEX.getD (byte.toNat % 16) '0']

def encode_fragment (fragment : String) : String := ofList ((JsonPointer.bytes fragment).flatMap encodeByte)

section
open JsonPointer (percentDecode)

theorem plain_ascii {c : Char} (plain : isPlain c = true) : c.toNat < 128 ∧ c ≠ '%' := by
  rw [isPlain,Bool.or_eq_true,decide_eq_true_eq] at plain
  rcases plain with letter | mark
  · have bounds := alphanum_ranges letter
    refine ⟨by omega,?_⟩
    rintro rfl
    exact absurd letter (by decide)
  · have marks : "-._~!$&'()*+,;=:@/?".toList.all (fun c => c.toNat < 128 ∧ c ≠ '%') = true := rfl
    exact of_decide_eq_true (List.all_eq_true.mp marks c mark)

theorem utf8_plain (n : Nat) (small : n < 256) (plain : isPlain (Char.ofNat n) = true) :
    utf8EncodeChar (Char.ofNat n) = [n.toUInt8] ∧ n.toUInt8.toNat ≠ 37 := by
  obtain ⟨ascii,percent⟩ := plain_ascii plain
  have same : (Char.ofNat n).toNat = n := by
    rw [Char.ofNat,dif_pos (Or.inl (by omega))]
    rfl
  have alone := String.utf8EncodeChar_eq_singleton (Char.utf8Size_eq_one_iff.mpr (by
    rw [UInt32.le_iff_toNat_le]
    exact Nat.le_of_lt_succ ascii))
  rw [same] at ascii
  refine ⟨alone.trans (congrArg (fun k : Nat => [k.toUInt8]) same),fun sign => percent ?_⟩
  rw [show n = 37 by simpa [Nat.mod_eq_of_lt small] using sign]

theorem utf8_HEX : ∀ n < 16, ∃ digit, utf8EncodeChar (HEX.getD n '0') = [digit] ∧ JsonPointer.hexDigit digit = some n := by
  have digits : ∀ n < 16, let digit := (HEX.getD n '0').toNat.toUInt8
      utf8EncodeChar (HEX.getD n '0') = [digit] ∧ JsonPointer.hexDigit digit = some n := by decide
  exact fun n small => ⟨_,digits n small⟩

theorem decode_encodeByte (byte : UInt8) (rest : List UInt8) :
    percentDecode (Encoded.utf8 (encodeByte byte) ++ rest) = (byte :: ·) <$> percentDecode rest := by
  have small : byte.toNat < 256 := byte.toNat_lt
  have same : byte.toNat.toUInt8 = byte := UInt8.ofNat_toNat
  rw [encodeByte]
  split
  · rename_i plain
    obtain ⟨alone,percent⟩ := utf8_plain _ small plain
    rw [same] at alone percent
    rw [utf8_cons,alone,utf8_nil]
    exact JsonPointer.percentDecode_plain percent rest
  · obtain ⟨_,written,value⟩ := utf8_HEX (byte.toNat / 16) (by omega)
    obtain ⟨_,written',value'⟩ := utf8_HEX (byte.toNat % 16) (by omega)
    have percent : utf8EncodeChar '%' = [37] := rfl
    simp only [utf8_cons,utf8_nil,written,written',percent,cons_append,nil_append]
    rw [percentDecode,if_pos (by decide),value,value']
    have number : byte.toNat / 16 * 16 + byte.toNat % 16 = byte.toNat := by omega
    simp only [Option.bind_eq_bind,Option.bind_some,number,same]
    cases percentDecode rest <;> rfl

theorem decode_encoded (plain : List UInt8) : percentDecode (Encoded.utf8 (plain.flatMap encodeByte)) = some plain := by
  induction plain with
  | nil => rfl
  | cons _ _ ih =>
    rw [flatMap_cons,utf8_append,decode_encodeByte,ih]
    rfl

theorem bytes_encode_fragment (fragment : String) :
    percentDecode (JsonPointer.bytes (encode_fragment fragment)) = some (JsonPointer.bytes fragment) := by
  have written : JsonPointer.bytes (encode_fragment fragment) = utf8 ((JsonPointer.bytes fragment).flatMap encodeByte) := by
    rw [JsonPointer.bytes,toUTF8_toList,encode_fragment,String.toList_ofList]
  rw [written,decode_encoded]

/-- Decoding gives back the text that was encoded, and a reference to it names what the pointer names. -/
theorem decode_encode_fragment (fragment : String) :
    decode_fragment (encode_fragment fragment) = some fragment ∧
      JsonPointer.location ("#" ++ encode_fragment fragment) = JsonPointer.tokens (JsonPointer.bytes fragment) := by
  have hash : JsonPointer.bytes "#" = [35] := rfl
  constructor
  · rw [decode_fragment,bytes_encode_fragment]
    exact dif_pos fragment.isValidUTF8
  · rw [JsonPointer.location,JsonPointer.bytes_append,hash]
    simp only [cons_append,nil_append,if_true,bytes_encode_fragment,Option.bind_some]

end

section
variable {Url : Type} [DecidableEq Url] (urls : Urls Url)

/-- `split_once('#')`, the part before. -/
def beforeHash (reference : String) : Option String :=
  if '#' ∈ reference.toList then some (ofList (reference.toList.takeWhile (· ≠ '#'))) else none

def rewrite_reference (reference : String) (base : Url) (moves : List String) (resources : List (Url × String)) : String :=
  match urls.join base reference with
  | none => reference
  | some target_uri =>
    match (urls.fragment target_uri).bind decode_fragment with
    | none => reference
    | some pointer =>
      if slashed pointer = false then reference
      else
        match resources.lookup (urls.without_fragment target_uri) with
        | none => reference
        | some resource =>
          let original_resource := moves.reverse.foldl (fun path moved => relocate path (moved ++ "/anyOf/0") moved) resource
          let target := moves.foldl (fun path moved => relocate path moved (moved ++ "/anyOf/0")) (original_resource ++ pointer)
          match stripPrefix resource target, beforeHash reference with
          | some relative, some before =>
            if slashed relative ∧ relative ≠ pointer then before ++ "#" ++ encode_fragment relative else reference
          | _, _ => reference

/-- `trim_end_matches('#').ends_with(..)`. -/
def isDraft04 (dialect : String) : Bool :=
  "/draft-04/schema".toList.reverse.isPrefixOf (dialect.toList.reverse.dropWhile (· = '#'))

def scope (object : JsonObject) (base : Url) (inherited : IdKeyword) : Url × IdKeyword :=
  let id_keyword :=
    match (object.get "$schema").bind (·.as_str) with
    | some dialect => if isDraft04 dialect then .Draft04 else .Modern
    | none => inherited
  let identifier := (object.get (match id_keyword with | .Modern => "$id" | .Draft04 => "id")).bind (·.as_str)
  (((identifier.bind (urls.join base)).getD base),id_keyword)

/-- `HashMap::entry` with `or_insert_with`. -/
def addResource (resource : Url) (path : String) (resources : List (Url × String)) : List (Url × String) :=
  if (resources.lookup resource).isSome then resources else resources ++ [(resource,path)]

/-- Each level of schemas takes one from the number of levels. -/
def collect_resources : Nat → JsonValue → String → Url → IdKeyword → StateM (List (Url × String)) Unit
  | n + 1, .object object, path, base, inherited => do
    let (base,id_keyword) := scope urls object base inherited
    modify (addResource (urls.without_fragment base) path)
    discard <| visit_children (fun child child_path => do
      collect_resources n child child_path base id_keyword
      return child) object path
  | _, _, _, _, _ => return ()

def referenceKeywords : List String := ["$ref","$dynamicRef","$recursiveRef"]

def rewriteString (change : String → String) : JsonValue → JsonValue
  | .string reference => .string (change reference)
  | other => other

def rewrite (moves : List String) (resources : List (Url × String)) :
    Nat → JsonValue → String → Url → IdKeyword → Id JsonValue
  | n + 1, .object object, path, base, inherited => do
    let (base,id_keyword) := scope urls object base inherited
    let object := referenceKeywords.foldl (fun object keyword => JsonObject.modify object keyword
      (rewriteString (rewrite_reference urls · base moves resources))) object
    .object <$> visit_children (fun child child_path => rewrite moves resources n child child_path base id_keyword) object path
  | _, schema, _, _, _ => return schema

/-- Moves are recorded in insertion order, in each intermediate tree's coordinates. -/
def rewrite_local_references (schema : JsonValue) (moves : List String) : JsonValue :=
  if moves = [] then schema
  else
    match urls.parse "https://ferrin.invalid/schema" with
    | none => schema
    | some base =>
      let levels := schema.depth + 1
      let resources := ((collect_resources urls levels schema "" base .Modern).run [(base,"")]).2
      (rewrite urls moves resources levels schema "" base .Modern).run

end

end Ferrin.Schema
