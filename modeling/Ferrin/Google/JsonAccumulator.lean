import Ferrin.Json.Compact

/-!
The accumulator of function call arguments that are streamed as paths and
scalar values. Texts are lists of characters.
-/
namespace Ferrin.Google
open JsonObject (insert)

structure PartialArg where
  json_path : List Char
  string_value : Option String
  number_value : Option JsonNumber
  bool_value : Option Bool
  null_value : Bool
  will_continue : Option Bool

inductive PathSegment where
  | Key (key : String)
  | Index (index : Nat)
  deriving DecidableEq

structure StackEntry where
  segment : PathSegment
  is_array : Bool
  child_count : Nat

structure JsonAccumulator where
  args : JsonObject
  json_text : List Char
  stack : List StackEntry
  string_open : Bool

/-! ### Paths -/

/-- `str::split` at one character. -/
def split (at_ : Char) : List Char → List (List Char)
  | [] => [[]]
  | c :: rest =>
    if c = at_ then [] :: split at_ rest
    else
      match split at_ rest with
      | [] => [[c]]
      | first :: others => (c :: first) :: others

/-- `str::parse::<usize>`. -/
def parse_usize (text : List Char) : Option Nat :=
  let digits := if text.head? = some '+' then text.tail else text
  if digits ≠ [] ∧ digits.all Char.isDigit then
    let n := Nat.ofDigitChars 10 digits 0
    if n < 2 ^ 64 then some n else none
  else none

def bracketed : Nat → List Char → List PathSegment
  | 0,_ => []
  | fuel + 1,rest =>
    match rest.dropWhile (· ≠ '[') with
    | [] => []
    | _ :: inner =>
      match inner.dropWhile (· ≠ ']') with
      | [] => []
      | _ :: rest => ((parse_usize (inner.takeWhile (· ≠ ']'))).map .Index).toList ++ bracketed fuel rest

def parse_part (part : List Char) : List PathSegment :=
  let key := part.takeWhile (· ≠ '[')
  if '[' ∈ part then
    (if key = [] then [] else [.Key (String.ofList key)]) ++ bracketed part.length (part.dropWhile (· ≠ '['))
  else [.Key (String.ofList part)]

def parse_path (raw_path : List Char) : List PathSegment := (split '.' raw_path).flatMap parse_part

def child (v : JsonValue) : PathSegment → Option JsonValue
  | .Key key => v.as_object.bind (·.lookup key)
  | .Index index => v.as_array.bind (·[index]?)

def get_nested (object : JsonObject) : List PathSegment → Option JsonValue
  | .Key key :: rest => rest.foldl (fun current segment => current.bind (child · segment)) (object.lookup key)
  | _ => none

def container_for : Option PathSegment → JsonValue
  | some (.Index _) => .array []
  | _ => .object []

/-- `while items.len() <= index` an empty item is pushed. -/
def pad (items : List JsonValue) (index : Nat) : List JsonValue :=
  items ++ List.replicate (index + 1 - items.length) .null

def set_nested_into (segment : PathSegment) (value slot : JsonValue) : JsonValue :=
  match segment,slot with
  | .Key key,.object target => .object (insert target key value)
  | .Index index,.array items => .array ((pad items index).set index value)
  | _,slot => slot

/-- The last step of `set_nested`. -/
def set_last (segment : PathSegment) (value current : JsonValue) : JsonValue :=
  match segment,current with
  | .Key key,.object target => .object (insert target key value)
  | .Index index,.array items => .array ((pad items index).set index value)
  | segment,_ => set_nested_into segment value (container_for (some segment))

def child_slot (segment : PathSegment) (next : Option PathSegment) (update : JsonValue → JsonValue)
    (current : JsonValue) : JsonValue :=
  match segment with
  | .Key key =>
    let object := current.as_object.getD []
    let slot := (object.lookup key).getD .null
    .object (insert object key (update (if slot = .null then container_for next else slot)))
  | .Index index =>
    let items := pad (current.as_array.getD []) index
    let slot := items[index]?.getD .null
    .array (items.set index (update (if slot = .null then container_for next else slot)))

/-- The steps of `set_nested` after the first. -/
def set_below (value : JsonValue) : List PathSegment → JsonValue → JsonValue
  | [],current => current
  | [last],current => set_last last value current
  | segment :: next :: rest,current => child_slot segment (some next) (set_below value (next :: rest)) current

def set_nested (object : JsonObject) (segments : List PathSegment) (value : JsonValue) : JsonObject :=
  match segments with
  | [.Key key] => insert object key value
  | .Key key :: rest =>
    insert object key (set_below value rest ((object.lookup key).getD (container_for rest.head?)))
  | _ => object

def escape_json_string (text : String) : List Char := (quoted text).tail.dropLast

def resolve_value (p : Primitives) (arg : PartialArg) : Option (JsonValue × List Char) :=
  match arg.string_value with
  | some text => some (.string text,write_compact p (.string text))
  | none =>
    match arg.number_value with
    | some number => some (.number number,write_compact p (.number number))
    | none =>
      match arg.bool_value with
      | some flag => some (.bool flag,(toString flag).toList)
      | none => if arg.null_value then some (.null,"null".toList) else none

namespace JsonAccumulator

def new : JsonAccumulator := ⟨[],[],[],false⟩

def rootEntry : StackEntry := ⟨.Key "",false,0⟩

def ensure_root (acc : JsonAccumulator) : JsonAccumulator × List Char :=
  if acc.stack = [] then ({ acc with stack := [rootEntry] },['\x7b']) else (acc,[])

/-- How far the open containers, the root aside, go along the path. -/
def common_stack_depth (acc : JsonAccumulator) (container : List PathSegment) : Nat :=
  let max_depth := min (acc.stack.length - 1) container.length
  let common := ((acc.stack.drop 1).zip (container.take max_depth)).takeWhile fun (entry,segment) => entry.segment = segment
  common.length + 1

def closer (entry : StackEntry) : Char := if entry.is_array then ']' else '\x7d'

def close_down_to (acc : JsonAccumulator) (depth : Nat) : JsonAccumulator × List Char :=
  ({ acc with stack := acc.stack.take depth },(acc.stack.drop depth).reverse.map closer)

def bump : List StackEntry → List StackEntry × List Char
  | [] => ([],[])
  | [entry] => ([{ entry with child_count := entry.child_count + 1 }],if entry.child_count > 0 then [','] else [])
  | entry :: rest =>
    let (rest,comma) := bump rest
    (entry :: rest,comma)

def keyText : PathSegment → List Char
  | .Key key => quoted key ++ [':']
  | .Index _ => []

def isIndex : PathSegment → Bool
  | .Index _ => true
  | .Key _ => false

/-- The containers from here down to the leaf. -/
def open_from (stack : List StackEntry) (leaf : PathSegment) : List PathSegment → List StackEntry × List Char
  | [] => (stack,[])
  | segment :: rest =>
    let (bumped,comma) := bump stack
    let is_array := isIndex (rest.head?.getD leaf)
    let (stack,fragment) := open_from (bumped ++ [⟨segment,is_array,0⟩]) leaf rest
    (stack,comma ++ keyText segment ++ [if is_array then '[' else '\x7b'] ++ fragment)

def open_down_to (acc : JsonAccumulator) (container : List PathSegment) (leaf : PathSegment) :
    JsonAccumulator × List Char :=
  let (stack,fragment) := open_from acc.stack leaf (container.drop (acc.stack.length - 1))
  ({ acc with stack },fragment)

def emit_leaf (acc : JsonAccumulator) (leaf : PathSegment) (arg : PartialArg) (json : List Char) :
    JsonAccumulator × List Char :=
  let (stack,comma) := bump acc.stack
  let continues := arg.string_value.isSome ∧ arg.will_continue = some true
  ({ acc with stack,string_open := if continues then true else acc.string_open },
    comma ++ keyText leaf ++ if continues then json.dropLast else json)

def emit_navigation (acc : JsonAccumulator) (segments : List PathSegment) (arg : PartialArg) (json : List Char) :
    JsonAccumulator × List Char :=
  let quote := if acc.string_open then ['"'] else []
  let (acc,root) := ({ acc with string_open := false }).ensure_root
  match segments.getLast? with
  | none => (acc,quote ++ root)
  | some leaf =>
    let container := segments.dropLast
    let (acc,closed) := acc.close_down_to (acc.common_stack_depth container)
    let (acc,opened) := acc.open_down_to container leaf
    let (acc,written) := acc.emit_leaf leaf arg json
    (acc,quote ++ root ++ closed ++ opened ++ written)

/-- The path without its first two characters when they are those of a root. -/
def raw_path (arg : PartialArg) : List Char :=
  if ['$','.'] <+: arg.json_path then arg.json_path.drop 2 else arg.json_path

/-- One turn of the loop of `process`, with the delta of this argument. -/
def process_arg (p : Primitives) (acc : JsonAccumulator) (arg : PartialArg) : JsonAccumulator × List Char :=
  if raw_path arg = [] then (acc,[])
  else
    let segments := parse_path (raw_path arg)
    match arg.string_value,get_nested acc.args segments with
    | some string_value,some existing =>
      let joined := existing.as_str.getD "" ++ string_value
      ({ acc with args := set_nested acc.args segments (.string joined) },escape_json_string string_value)
    | _,_ =>
      match resolve_value p arg with
      | none => (acc,[])
      | some (value,json) => ({ acc with args := set_nested acc.args segments value }).emit_navigation segments arg json

/-- The loop of `process`. -/
def process_args (p : Primitives) : JsonAccumulator → List PartialArg → JsonAccumulator × List Char
  | acc,[] => (acc,[])
  | acc,arg :: rest =>
    let (acc,fragment) := acc.process_arg p arg
    let (acc,delta) := acc.process_args p rest
    (acc,fragment ++ delta)

def process (p : Primitives) (acc : JsonAccumulator) (partial_args : List PartialArg) : JsonAccumulator × List Char :=
  let (acc,delta) := acc.process_args p partial_args
  ({ acc with json_text := acc.json_text ++ delta },delta)

def byteLength (text : List Char) : Nat := (text.map Char.utf8Size).sum

/-- `str::get` from a byte on. -/
def get_from : List Char → Nat → Option (List Char)
  | text,0 => some text
  | [],_ + 1 => none
  | c :: rest,n + 1 => if c.utf8Size ≤ n + 1 then get_from rest (n + 1 - c.utf8Size) else none

def finalize (p : Primitives) (acc : JsonAccumulator) : List Char × List Char :=
  let final_json := write_compact p (.object acc.args)
  (final_json,(get_from final_json (byteLength acc.json_text)).getD [])

end JsonAccumulator

end Ferrin.Google
