import Ferrin.Google.JsonPath

/-!
Arguments streamed leaf by leaf. The accumulator leaves containers open until
another path needs them closed; what it has emitted, with the closers that are
still due, is the text of the leaves so far (`Settled`).
-/
namespace Ferrin.Google
open JsonAccumulator List JsonValue
open JsonValue (object)
open List (mem_map mem_singleton)

/-! ### Leaves and their fragments -/

mutual

def leaves (path : List PathSegment) : JsonValue → List (List PathSegment × JsonValue)
  | .array items => leaves_items path 0 items
  | .object entries => leaves_entries path entries
  | leaf => [(path,leaf)]

def leaves_items (path : List PathSegment) : Nat → List JsonValue → List (List PathSegment × JsonValue)
  | _,[] => []
  | index,item :: rest => leaves (path ++ [.Index index]) item ++ leaves_items path (index + 1) rest

def leaves_entries (path : List PathSegment) : List (String × JsonValue) → List (List PathSegment × JsonValue)
  | [] => []
  | (key,value) :: rest => leaves (path ++ [.Key key]) value ++ leaves_entries path rest

end

def fragment (path : List PathSegment) (text : String) (will_continue : Option Bool) : PartialArg :=
  ⟨path_text path,some text,none,none,false,will_continue⟩

/-- The arguments that spell a leaf. A string may come in fragments, the first of them marked as continuing. -/
inductive LeafArgs (path : List PathSegment) : JsonValue → List PartialArg → Prop
  | null (c : Option Bool) : LeafArgs path .null [⟨path_text path,none,none,none,true,c⟩]
  | bool (flag : Bool) (c : Option Bool) : LeafArgs path (.bool flag) [⟨path_text path,none,none,some flag,false,c⟩]
  | number (n : JsonNumber) (c : Option Bool) : LeafArgs path (.number n) [⟨path_text path,none,some n,none,false,c⟩]
  | string (first : String) (c : Option Bool) (more : List (String × Option Bool)) (continues : more ≠ [] → c = some true) :
      LeafArgs path (.string (more.foldl (fun text f => text ++ f.1) first))
        (fragment path first c :: more.map fun f => fragment path f.1 f.2)

inductive Enumerated : List (List PathSegment × JsonValue) → List PartialArg → Prop
  | nil : Enumerated [] []
  | cons {path leaf rest args more} (spelled : LeafArgs path leaf args) (others : Enumerated rest more) :
      Enumerated ((path,leaf) :: rest) (args ++ more)

theorem enumerated_append {first second : List (List PathSegment × JsonValue)} : ∀ {args : List PartialArg},
    Enumerated (first ++ second) args → ∃ a b, args = a ++ b ∧ Enumerated first a ∧ Enumerated second b := by
  induction first with
  | nil => exact fun all => ⟨[],_,rfl,.nil,all⟩
  | cons _ _ ih =>
    intro args all
    cases all with
    | cons spelled others =>
      obtain ⟨a,b,rfl,left,right⟩ := ih others
      exact ⟨_ ++ a,b,(append_assoc _ _ _).symm,.cons spelled left,right⟩

def children : JsonValue → List (PathSegment × JsonValue)
  | .array items => items.zipIdx.map fun (item,index) => (.Index index,item)
  | .object entries => entries.map fun (key,value) => (.Key key,value)
  | _ => []

def isContainer : JsonValue → Bool
  | .array _ | .object _ => true
  | _ => false

variable (path : List PathSegment)

theorem leaves_items_children (items : List JsonValue) : ∀ n, leaves_items path n items =
    ((items.zipIdx n).map fun (item,index) => (PathSegment.Index index,item)).flatMap fun c =>
      leaves (path ++ [c.1]) c.2 := by
  induction items with
  | nil => exact fun n => rfl
  | cons _ _ ih =>
    intro n
    rw [leaves_items,ih,zipIdx_cons,map_cons,flatMap_cons]

theorem leaves_entries_children (entries : List (String × JsonValue)) :
    leaves_entries path entries = (entries.map fun (key,value) => (PathSegment.Key key,value)).flatMap fun c =>
      leaves (path ++ [c.1]) c.2 := by
  induction entries with
  | nil => rfl
  | cons _ _ ih => rw [leaves_entries,ih,map_cons,flatMap_cons]

theorem leaves_children (v : JsonValue) (container : isContainer v = true) :
    leaves path v = (children v).flatMap fun c => leaves (path ++ [c.1]) c.2 := by
  cases v <;> cases container
  · exact leaves_items_children path _ 0
  · exact leaves_entries_children path _

def grow (v : JsonValue) (new : List (PathSegment × JsonValue)) : JsonValue :=
  new.foldl (fun v c => set_at v [c.1] c.2) v

/-- Children that are not there yet when their turn comes. -/
def Fresh : JsonValue → List (PathSegment × JsonValue) → Prop
  | _,[] => True
  | v,c :: rest => child v c.1 = none ∧ Fresh (set_at v [c.1] c.2) rest

theorem grow_entries (entries : List (String × JsonValue)) : ∀ done : List (String × JsonValue),
    ((done ++ entries).map (·.1)).Nodup →
    Fresh (.object done) (entries.map fun (key,value) => (PathSegment.Key key,value)) ∧
      grow (.object done) (entries.map fun (key,value) => (PathSegment.Key key,value)) = .object (done ++ entries) := by
  induction entries with
  | nil => exact fun done _ => ⟨trivial,by simp [grow]⟩
  | cons entry _ ih =>
    intro done once
    obtain ⟨key,value⟩ := entry
    have absent : done.lookup key = none := by
      by_contra known
      obtain ⟨v,found⟩ := Option.ne_none_iff_exists'.mp known
      rw [map_append] at once
      exact disjoint_of_nodup_append once (mem_map.mpr ⟨_,Assoc.mem_of_lookup found,rfl⟩) (by simp)
    have added : set_at (.object done) [.Key key] value = .object (done ++ [(key,value)]) :=
      congrArg object (JsonObject.insert_of_absent absent value)
    obtain ⟨fresh,grown⟩ := ih (done ++ [(key,value)]) (by simpa using once)
    rw [← added] at fresh grown
    refine ⟨⟨absent,fresh⟩,?_⟩
    rw [grow,map_cons,foldl_cons]
    exact grown.trans (by simp)

theorem grow_items (items : List JsonValue) : ∀ done : List JsonValue,
    Fresh (.array done) ((items.zipIdx done.length).map fun (item,index) => (PathSegment.Index index,item)) ∧
      grow (.array done) ((items.zipIdx done.length).map fun (item,index) => (PathSegment.Index index,item)) =
        .array (done ++ items) := by
  induction items with
  | nil => exact fun done => ⟨trivial,by simp [grow]⟩
  | cons item _ ih =>
    intro done
    have absent : child (.array done) (.Index done.length) = none := getElem?_eq_none (Nat.le_refl _)
    have added : set_at (.array done) [.Index done.length] item = .array (done ++ [item]) := by
      simp [set_at,pad,as_array]
    obtain ⟨fresh,grown⟩ := ih (done ++ [item])
    rw [← added,length_append,length_singleton] at fresh
    rw [← added,length_append,length_singleton] at grown
    rw [zipIdx_cons,map_cons]
    refine ⟨⟨absent,fresh⟩,?_⟩
    rw [grow,foldl_cons]
    exact grown.trans (by simp)

def segments (stack : List StackEntry) : List PathSegment := (stack.drop 1).map (·.segment)

def rooted (acc : JsonAccumulator) : List StackEntry := if acc.stack = [] then [rootEntry] else acc.stack

def quoteDue (acc : JsonAccumulator) : List Char := if acc.string_open then ['"'] else []

def rootDue (acc : JsonAccumulator) : List Char := if acc.stack = [] then ['\x7b'] else []

structure Settled (acc : JsonAccumulator) (text : List Char) (stack extra : List StackEntry) (told : List Char) : Prop where
  opened : rooted acc = stack ++ extra
  closes : text ++ (quoteDue acc ++ (rootDue acc ++ extra.reverse.map closer)) = told

def Diverges (extra : List StackEntry) (path : List PathSegment) : Prop :=
  ∀ e ∈ extra.head?, ∀ s ∈ path.head?, e.segment ≠ s

theorem zip_take_min {α β : Type} (xs : List α) : ∀ ys : List β, xs.zip (ys.take (min xs.length ys.length)) = xs.zip ys := by
  induction xs with
  | nil => exact fun ys => by simp
  | cons x xs ih =>
    intro ys
    cases ys with
    | nil => rfl
    | cons y ys =>
      rw [length_cons,length_cons,Nat.succ_min_succ,take_succ_cons,zip_cons_cons,zip_cons_cons,ih]

variable {acc : JsonAccumulator}

theorem common_depth {stack extra : List StackEntry} {path : List PathSegment} (some_ : stack ≠ [])
    (opened : acc.stack = stack ++ extra) (diverges : Diverges extra path) :
    acc.common_stack_depth (segments stack ++ path) = stack.length := by
  obtain ⟨root,rest,rfl⟩ := exists_cons_of_ne_nil some_
  have same : ∀ rest : List StackEntry, ((rest ++ extra).zip (rest.map (·.segment) ++ path)).takeWhile
      (fun pair => pair.1.segment = pair.2) = rest.zip (rest.map (·.segment)) := by
    intro rest
    induction rest with
    | nil =>
      cases extra with
      | nil => rfl
      | cons e extra =>
        cases path with
        | nil => rfl
        | cons s path =>
          have differs := diverges e rfl s rfl
          simp [differs]
    | cons entry rest ih =>
      rw [map_cons,cons_append,cons_append,zip_cons_cons,takeWhile_cons_of_pos (by simp),ih]
      rfl
  unfold common_stack_depth
  have lengths : min (acc.stack.length - 1) (segments (root :: rest) ++ path).length =
      min (rest ++ extra).length (segments (root :: rest) ++ path).length := by
    rw [opened]
    simp
  have dropped : acc.stack.drop 1 = rest ++ extra := by rw [opened]; rfl
  simp only [lengths,dropped,zip_take_min]
  rw [segments,drop_succ_cons,drop_zero,same]
  simp

theorem bump_append (stack : List StackEntry) (entry : StackEntry) : bump (stack ++ [entry]) =
    (stack ++ [{ entry with child_count := entry.child_count + 1 }],if entry.child_count > 0 then [','] else []) := by
  induction stack with
  | nil => rfl
  | cons first rest ih =>
    cases rest with
    | nil => rfl
    | cons second others =>
      rw [cons_append,cons_append,bump]
      · rw [cons_append] at ih
        rw [ih]
        rfl
      · simp

theorem segments_append {stack : List StackEntry} (some_ : stack ≠ []) (entry : StackEntry) :
    segments (stack ++ [entry]) = segments stack ++ [entry.segment] := by
  obtain ⟨root,rest,rfl⟩ := exists_cons_of_ne_nil some_
  simp [segments]

theorem segments_bump (stack : List StackEntry) : segments (bump stack).1 = segments stack := by
  rcases eq_nil_or_concat stack with rfl | ⟨before,last,rfl⟩
  · rfl
  · rw [concat_eq_append,bump_append]
    cases before <;> simp [segments]

theorem bump_ne_nil {stack : List StackEntry} (some_ : stack ≠ []) : (bump stack).1 ≠ [] := by
  rcases eq_nil_or_concat stack with rfl | ⟨before,last,rfl⟩
  · exact absurd rfl some_
  · rw [concat_eq_append,bump_append]
    simp

theorem open_from_append (leaf s : PathSegment) (path : List PathSegment) : ∀ stack : List StackEntry,
    open_from stack leaf (path ++ [s]) =
      ((bump (open_from stack s path).1).1 ++ [⟨s,isIndex leaf,0⟩],
        (open_from stack s path).2 ++ ((bump (open_from stack s path).1).2 ++
          (keyText s ++ [if isIndex leaf then '[' else '\x7b']))) := by
  induction path with
  | nil =>
    intro stack
    simp only [nil_append,open_from,append_nil,append_assoc]
    rfl
  | cons first rest ih =>
    intro stack
    have next : ((rest ++ [s]).head?.getD leaf) = rest.head?.getD s := by cases rest <;> rfl
    rw [cons_append,open_from,next,open_from]
    generalize bump stack = bumped
    dsimp only
    rw [ih]
    simp

theorem open_from_frame (leaf : PathSegment) (path : List PathSegment) : ∀ stack : List StackEntry, stack ≠ [] →
    (open_from stack leaf path).1 ≠ [] ∧ segments (open_from stack leaf path).1 = segments stack ++ path := by
  induction path using reverseRecOn generalizing leaf with
  | nil => exact fun stack some_ => ⟨some_,(append_nil _).symm⟩
  | append_singleton path s ih =>
    intro stack some_
    obtain ⟨more,same⟩ := ih s stack some_
    rw [open_from_append]
    refine ⟨by simp,?_⟩
    rw [segments_append (bump_ne_nil more),segments_bump,same,append_assoc]

theorem navigate {text told json : List Char} {stack extra : List StackEntry}
    {path : List PathSegment} {leaf : PathSegment} {arg : PartialArg} (settled : Settled acc text stack extra told)
    (some_ : stack ≠ []) (diverges : Diverges extra path) :
    ∃ m, acc.emit_navigation (segments stack ++ path ++ [leaf]) arg json = m ∧ m.1.args = acc.args ∧
      m.1.stack = (bump (open_from stack leaf path).1).1 ∧
      m.1.string_open = decide (arg.string_value.isSome ∧ arg.will_continue = some true) ∧
      text ++ m.2 = told ++ ((open_from stack leaf path).2 ++ ((bump (open_from stack leaf path).1).2 ++ (keyText leaf ++
        if arg.string_value.isSome ∧ arg.will_continue = some true then json.dropLast else json))) := by
  have isRooted : ({ acc with string_open := false }).ensure_root =
      ({ acc with stack := rooted acc,string_open := false },rootDue acc) := by
    unfold ensure_root rooted rootDue
    by_cases empty : acc.stack = [] <;> simp [empty]
  have last : (segments stack ++ path ++ [leaf]).getLast? = some leaf := getLast?_concat
  have depth := @common_depth { acc with stack := rooted acc,string_open := false } stack extra path some_ settled.opened
    diverges
  have kept : (rooted acc).take stack.length = stack := by rw [settled.opened]; exact take_left
  have closed : (rooted acc).drop stack.length = extra := by rw [settled.opened]; exact drop_left
  have below : (segments stack ++ path).drop (stack.length - 1) = path := by
    have length : stack.length - 1 = (segments stack).length := by simp [segments]
    rw [length]
    exact drop_left
  refine ⟨_,rfl,?_⟩
  unfold emit_navigation
  rw [isRooted,last]
  dsimp only
  rw [dropLast_concat,depth,close_down_to]
  dsimp only
  rw [kept,closed,open_down_to]
  dsimp only
  rw [below,emit_leaf]
  dsimp only
  refine ⟨rfl,rfl,?_,?_⟩
  · by_cases continues : arg.string_value.isSome ∧ arg.will_continue = some true <;> simp [continues]
  · rw [← settled.closes]
    simp [quoteDue]

/-! ### Leaves -/

section
variable {p : Primitives} {acc : JsonAccumulator} {text told : List Char} {stack extra : List StackEntry}
  {path : List PathSegment} {s : PathSegment}

/-- A path that is written and read back. -/
structure Located (path : List PathSegment) : Prop where
  keyed : ∃ key rest, path = .Key key :: rest
  plain : ∀ s ∈ path, Plain s

theorem raw_path_text {path : List PathSegment} (located : Located path) {arg : PartialArg}
    (same : arg.json_path = path_text path) : raw_path arg ≠ [] ∧ parse_path (raw_path arg) = path := by
  obtain ⟨⟨key,rest,rfl⟩,plain⟩ := located
  have raw : raw_path arg = key.toList ++ tailText rest := by
    rw [raw_path,same,path_text,if_pos ⟨_,rfl⟩]
    rfl
  have named : key.toList ≠ [] := by simpa using (plain _ mem_cons_self).1
  refine ⟨by simp [raw,named],?_⟩
  rw [raw]
  exact parse_path_text key rest plain

/-- The text of the next leaf or container: what its path takes, a comma if one is due, and its key. -/
def lead (stack : List StackEntry) (path : List PathSegment) (s : PathSegment) : List Char :=
  (open_from stack s path).2 ++ ((bump (open_from stack s path).1).2 ++ keyText s)

/-- The stack when the next child is written. -/
def reached (stack : List StackEntry) (path : List PathSegment) (s : PathSegment) : List StackEntry :=
  (bump (open_from stack s path).1).1

theorem process_first {arg : PartialArg} {v : JsonValue} (settled : Settled acc text stack extra told) (some_ : stack ≠ [])
    (diverges : Diverges extra path) (located : Located (segments stack ++ path ++ [s]))
    (absent : get_at (.object acc.args) (segments stack ++ path ++ [s]) = none)
    (same : arg.json_path = path_text (segments stack ++ path ++ [s]))
    (resolved : resolve_value p arg = some (v,write_compact p v)) :
    ∃ acc' delta, acc.process_arg p arg = (acc',delta) ∧
      object acc'.args = set_at (.object acc.args) (segments stack ++ path ++ [s]) v ∧
      acc'.string_open = decide (arg.string_value.isSome ∧ arg.will_continue = some true) ∧
      acc'.stack = reached stack path s ∧
      text ++ delta = told ++ (lead stack path s ++ if arg.string_value.isSome ∧ arg.will_continue = some true then
        (write_compact p v).dropLast else write_compact p v) := by
  obtain ⟨raw,parsed⟩ := raw_path_text located same
  obtain ⟨key,rest,starts⟩ := located.keyed
  have missing : get_nested acc.args (segments stack ++ path ++ [s]) = none := by
    rw [starts,get_nested_at,← starts,absent]
  have updated : object (set_nested acc.args (segments stack ++ path ++ [s]) v) =
      set_at (.object acc.args) (segments stack ++ path ++ [s]) v := by
    rw [starts]
    exact set_nested_at _ _ _ _
  have settled' : Settled { acc with args := set_nested acc.args (segments stack ++ path ++ [s]) v } text stack extra told :=
    ⟨settled.opened,settled.closes⟩
  obtain ⟨m,moved,args,opened,string_open,delta⟩ :=
    @navigate _ _ _ (write_compact p v) _ _ _ s arg settled' some_ diverges
  have step : acc.process_arg p arg = m := by
    rw [process_arg,if_neg raw]
    dsimp only
    rw [parsed,missing,resolved]
    cases arg.string_value <;> exact moved
  refine ⟨m.1,m.2,step,?_,string_open,opened,?_⟩
  · rw [args]
    exact updated
  · rw [delta,lead]
    simp only [append_assoc]

theorem escape_json_string_eq (text : String) : escape_json_string text = text.toList.flatMap escape_char := by
  simp [escape_json_string,quoted]

theorem process_more {path : List PathSegment} (located : Located path) (base : JsonValue)
    (more : List (String × Option Bool)) : ∀ (acc : JsonAccumulator) (t : String),
    object acc.args = set_at base path (.string t) →
    ∃ acc' delta, acc.process_args p (more.map fun f => fragment path f.1 f.2) = (acc',delta) ∧
      object acc'.args = set_at base path (.string (more.foldl (fun text f => text ++ f.1) t)) ∧
      acc'.string_open = acc.string_open ∧ acc'.stack = acc.stack ∧
      t.toList.flatMap escape_char ++ delta = (more.foldl (fun text f => text ++ f.1) t).toList.flatMap escape_char := by
  induction more with
  | nil => exact fun acc t args => ⟨acc,[],rfl,args,rfl,rfl,append_nil _⟩
  | cons f rest ih =>
    intro acc t args
    obtain ⟨raw,parsed⟩ := raw_path_text located (show (fragment path f.1 f.2).json_path = path_text path from rfl)
    obtain ⟨key,below,starts⟩ := located.keyed
    have found : get_nested acc.args path = some (.string t) := by
      rw [starts,get_nested_at,← starts,args,get_at_set_at]
    have joined : object (set_nested acc.args path (.string (t ++ f.1))) =
        set_at base path (.string (t ++ f.1)) := by
      have twice := set_at_append path [] (.string t) (.string (t ++ f.1)) base
      rw [append_nil,← args] at twice
      rw [starts] at twice ⊢
      exact (set_nested_at _ _ _ _).trans twice
    have step : acc.process_arg p (fragment path f.1 f.2) =
        ({ acc with args := set_nested acc.args path (.string (t ++ f.1)) },escape_json_string f.1) := by
      rw [process_arg,if_neg raw]
      dsimp only
      rw [parsed,found]
      rfl
    obtain ⟨acc',delta,fed,args,string_open,opened,escaped⟩ :=
      ih { acc with args := set_nested acc.args path (.string (t ++ f.1)) } (t ++ f.1) joined
    refine ⟨acc',escape_json_string f.1 ++ delta,?_,args,string_open,opened,?_⟩
    · rw [map_cons,process_args,step]
      dsimp only
      rw [fed]
    · rw [foldl_cons,← escaped,escape_json_string_eq]
      simp

def Feeds (p : Primitives) (v : JsonValue) (spelled : List PathSegment → List PartialArg → Prop) : Prop :=
  ∀ acc text stack extra told path s args, stack ≠ [] → Settled acc text stack extra told → Diverges extra (path ++ [s]) →
    Located (segments stack ++ path ++ [s]) → get_at (.object acc.args) (segments stack ++ path ++ [s]) = none →
    spelled (segments stack ++ path ++ [s]) args →
    ∃ acc' delta extra', acc.process_args p args = (acc',delta) ∧
      object acc'.args = set_at (.object acc.args) (segments stack ++ path ++ [s]) v ∧
      Settled acc' (text ++ delta) (reached stack path s) extra' (told ++ (lead stack path s ++ write_compact p v)) ∧
      ∀ e ∈ extra'.head?, e.segment = s

theorem Diverges.prefix {more : List PathSegment} (diverges : Diverges extra (path ++ more)) : Diverges extra path := by
  intro e head s first
  refine diverges e head s ?_
  cases path with
  | nil => cases first
  | cons a rest => exact first

theorem reached_ne_nil (some_ : stack ≠ []) : reached stack path s ≠ [] :=
  bump_ne_nil (open_from_frame s path stack some_).1

theorem feed_once {arg : PartialArg} {v : JsonValue} (settled : Settled acc text stack extra told) (some_ : stack ≠ [])
    (diverges : Diverges extra path) (located : Located (segments stack ++ path ++ [s]))
    (absent : get_at (.object acc.args) (segments stack ++ path ++ [s]) = none)
    (same : arg.json_path = path_text (segments stack ++ path ++ [s]))
    (resolved : resolve_value p arg = some (v,write_compact p v))
    (whole : ¬ (arg.string_value.isSome ∧ arg.will_continue = some true)) :
    ∃ acc' delta extra', acc.process_args p [arg] = (acc',delta) ∧
      object acc'.args = set_at (.object acc.args) (segments stack ++ path ++ [s]) v ∧
      Settled acc' (text ++ delta) (reached stack path s) extra' (told ++ (lead stack path s ++ write_compact p v)) ∧
      ∀ e ∈ extra'.head?, e.segment = s := by
  obtain ⟨acc',delta,step,args,string_open,opened,written⟩ :=
    process_first settled some_ diverges located absent same resolved
  have filled : acc'.stack ≠ [] := opened ▸ reached_ne_nil some_
  rw [if_neg whole] at written
  refine ⟨acc',delta,[],?_,args,⟨?_,?_⟩,by simp⟩
  · rw [process_args,step]
    simp [process_args]
  · rw [rooted,if_neg filled,opened,append_nil]
  · rw [written,quoteDue,string_open,rootDue,if_neg filled]
    simp [whole]

theorem feed_leaf (v : JsonValue) : Feeds p v fun path args => LeafArgs path v args := by
  intro acc text stack extra told path s args some_ settled diverges located absent spelled
  have apart := diverges.prefix
  cases spelled with
  | null c => exact feed_once settled some_ apart located absent rfl rfl (by simp)
  | bool flag c => exact feed_once settled some_ apart located absent rfl (by cases flag <;> rfl) (by simp)
  | number n c => exact feed_once settled some_ apart located absent rfl rfl (by simp)
  | string first c more continues =>
    by_cases goes_on : c = some true
    · obtain ⟨acc',delta,step,args,string_open,opened,written⟩ := @process_first p _ _ _ _ _ _ _
        (fragment (segments stack ++ path ++ [s]) first c) (.string first) settled some_ apart located absent rfl rfl
      obtain ⟨acc'',delta',fed,args',string_open',opened',escaped⟩ := process_more located (.object acc.args) more acc' first args
      have filled : acc''.stack ≠ [] := by rw [opened',opened]; exact reached_ne_nil some_
      have open_ : (fragment (segments stack ++ path ++ [s]) first c).string_value.isSome ∧
          (fragment (segments stack ++ path ++ [s]) first c).will_continue = some true := ⟨rfl,goes_on⟩
      rw [if_pos open_] at written
      refine ⟨acc'',delta ++ delta',[],?_,args',⟨?_,?_⟩,by simp⟩
      · rw [process_args,step]
        dsimp only
        rw [fed]
      · rw [rooted,if_neg filled,opened',opened,append_nil]
      · have begun : (write_compact p (.string first)).dropLast = '"' :: first.toList.flatMap escape_char := by
          rw [write_compact,quoted,← cons_append,dropLast_concat]
        rw [← append_assoc text,written,begun,quoteDue,string_open',string_open,rootDue,if_neg filled,write_compact,
          quoted,← escaped,if_pos (decide_eq_true open_)]
        simp
    · have alone : more = [] := by
        by_contra others
        exact goes_on (continues others)
      subst alone
      exact feed_once settled some_ apart located absent rfl rfl (by simp [fragment,goes_on])

theorem process_args_append (first second : List PartialArg) : ∀ acc : JsonAccumulator,
    acc.process_args p (first ++ second) = (((acc.process_args p first).1.process_args p second).1,
      (acc.process_args p first).2 ++ ((acc.process_args p first).1.process_args p second).2) := by
  induction first with
  | nil => exact fun acc => rfl
  | cons _ _ ih =>
    intro acc
    rw [cons_append,process_args,process_args]
    dsimp only
    rw [ih]
    simp

theorem feed_rest (base : JsonValue) (before : List StackEntry) (path : List PathSegment)
    (new : List (PathSegment × JsonValue)) : (∀ c ∈ new, Located (path ++ [c.1])) →
    (∀ c ∈ new, Feeds p c.2 fun path args => Enumerated (leaves path c.2) args) →
    ∀ acc text entry extra told v args, path = segments (before ++ [entry]) → 0 < entry.child_count →
      Settled acc text (before ++ [entry]) extra told → object acc.args = set_at base path v →
      (∀ e ∈ extra.head?, (child v e.segment).isSome) → Fresh v new →
      Enumerated (new.flatMap fun c => leaves (path ++ [c.1]) c.2) args →
      ∃ acc' delta extra', acc.process_args p args = (acc',delta) ∧
        object acc'.args = set_at base path (grow v new) ∧
        Settled acc' (text ++ delta) (before ++ [{ entry with child_count := entry.child_count + new.length }]) extra'
          (told ++ new.flatMap fun c => ',' :: (keyText c.1 ++ write_compact p c.2)) := by
  induction new with
  | nil =>
    intro _ _ acc text entry extra told v args _ _ settled args_eq _ _ spelled
    cases spelled
    refine ⟨acc,[],extra,rfl,args_eq,?_⟩
    simpa using settled
  | cons c rest ih =>
    intro located each acc text entry extra told v args same some_ settled args_eq apart fresh spelled
    obtain ⟨absent,later⟩ := fresh
    rw [flatMap_cons] at spelled
    obtain ⟨first,others,rfl,spelledFirst,spelledRest⟩ := enumerated_append spelled
    have diverges : Diverges extra ([] ++ [c.1]) := by
      intro e head s next
      cases next
      intro same
      have known := apart e head
      rw [same,absent] at known
      cases known
    have missing : get_at (.object acc.args) (path ++ [c.1]) = none := by
      rw [args_eq,get_at_append,get_at_set_at]
      simpa [get_at] using absent
    obtain ⟨acc₁,delta₁,extra₁,fed₁,args₁,settled₁,head₁⟩ := each c mem_cons_self acc text (before ++ [entry]) extra told []
      c.1 first (by simp) settled diverges (by rw [append_nil,← same]; exact located c mem_cons_self)
      (by rw [append_nil,← same]; exact missing) (by rw [append_nil,← same]; exact spelledFirst)
    have reachedNow : reached (before ++ [entry]) [] c.1 =
        before ++ [{ entry with child_count := entry.child_count + 1 }] := by
      rw [reached,open_from,bump_append]
    have leadNow : lead (before ++ [entry]) [] c.1 = ',' :: keyText c.1 := by
      rw [lead,open_from,bump_append,if_pos some_]
      rfl
    rw [reachedNow,leadNow] at settled₁
    rw [append_nil,← same,args_eq,set_at_append] at args₁
    obtain ⟨acc₂,delta₂,extra₂,fed₂,args₂,settled₂⟩ := ih (fun c mem => located c (mem_cons_of_mem _ mem))
      (fun c mem => each c (mem_cons_of_mem _ mem)) acc₁ (text ++ delta₁)
      { entry with child_count := entry.child_count + 1 } extra₁ _ (set_at v [c.1] c.2) others
      (same.trans (by cases before <;> simp [segments])) (Nat.succ_pos _) settled₁ args₁ (fun e head => by
        rw [head₁ e head,child_set_at]
        rfl) later spelledRest
    refine ⟨acc₂,delta₁ ++ delta₂,extra₂,?_,args₂,?_⟩
    · rw [process_args_append,fed₁]
      dsimp only
      rw [fed₂]
    · have length : entry.child_count + (c :: rest).length = entry.child_count + 1 + rest.length := by
        rw [length_cons]
        omega
      rw [length,flatMap_cons]
      simpa using settled₂

/-- Values that are streamed leaf by leaf: no container is empty, and keys can stand in a path. -/
inductive Streamable : JsonValue → Prop
  | null : Streamable .null
  | bool (flag : Bool) : Streamable (.bool flag)
  | number (n : JsonNumber) : Streamable (.number n)
  | string (text : String) : Streamable (.string text)
  | array {items : List JsonValue} (some_ : items ≠ []) (counted : items.length ≤ 2 ^ 64)
      (each : ∀ item ∈ items, Streamable item) : Streamable (.array items)
  | object {entries : List (String × JsonValue)} (some_ : entries ≠ []) (once : (entries.map (·.1)).Nodup)
      (plain : ∀ entry ∈ entries, Plain (.Key entry.1)) (each : ∀ entry ∈ entries, Streamable entry.2) :
      Streamable (.object entries)

variable {first : PathSegment × JsonValue} {rest : List (PathSegment × JsonValue)}

theorem children_grow {v : JsonValue} (streamable : Streamable v) (kids : children v = first :: rest) :
    Fresh (set_at .null [first.1] first.2) rest ∧ grow (set_at .null [first.1] first.2) rest = v := by
  cases streamable with
  | null => cases kids
  | bool => cases kids
  | number => cases kids
  | string => cases kids
  | @array items _ _ _ =>
    obtain ⟨fresh,grown⟩ := grow_items items []
    have list : ((items.zipIdx ([] : List JsonValue).length).map fun (item,index) => (PathSegment.Index index,item)) =
        first :: rest := kids
    have made : set_at (.array []) [first.1] first.2 = set_at .null [first.1] first.2 := by
      cases items with
      | nil => cases list
      | cons =>
        cases list
        rfl
    rw [list] at fresh grown
    rw [← made]
    exact ⟨fresh.2,grown⟩
  | @object entries _ once _ _ =>
    obtain ⟨fresh,grown⟩ := grow_entries entries [] once
    have list : (entries.map fun (key,value) => (PathSegment.Key key,value)) = first :: rest := kids
    have made : set_at (.object []) [first.1] first.2 = set_at .null [first.1] first.2 := by
      cases entries with
      | nil => cases list
      | cons =>
        cases list
        rfl
    rw [list] at fresh grown
    rw [← made]
    exact ⟨fresh.2,grown⟩

theorem commas_cons (first : List Char) (rest : List (List Char)) :
    commas (first :: rest) = first ++ rest.flatMap (',' :: ·) := by
  unfold commas
  induction rest generalizing first with
  | nil => simp [intercalate]
  | cons _ _ ih =>
    rw [intercalate_cons_cons,ih]
    simp

theorem compact_items_children (items : List JsonValue) : ∀ n, compact_items p items =
    ((items.zipIdx n).map fun (item,index) => (PathSegment.Index index,item)).map fun c =>
      keyText c.1 ++ write_compact p c.2 := by
  induction items with
  | nil => exact fun n => rfl
  | cons _ _ ih =>
    intro n
    rw [compact_items,ih (n + 1),zipIdx_cons,map_cons,map_cons]
    rfl

theorem compact_entries_children (entries : List (String × JsonValue)) : compact_entries p entries =
    (entries.map fun (key,value) => (PathSegment.Key key,value)).map fun c => keyText c.1 ++ write_compact p c.2 := by
  induction entries with
  | nil => rfl
  | cons _ _ ih =>
    rw [compact_entries,ih,map_cons,map_cons]
    simp [keyText]

theorem compact_children {v : JsonValue} (kids : children v = first :: rest) : write_compact p v =
      (if isIndex first.1 then '[' else '\x7b') :: (keyText first.1 ++ write_compact p first.2 ++
        rest.flatMap (fun c => ',' :: (keyText c.1 ++ write_compact p c.2)) ++
          [if isIndex first.1 then ']' else '\x7d']) := by
  cases v with
  | array items =>
    have list : ((items.zipIdx 0).map fun (item,index) => (PathSegment.Index index,item)) = first :: rest := kids
    have index : isIndex first.1 = true := by
      cases items with
      | nil => cases list
      | cons =>
        cases list
        rfl
    rw [write_compact,compact_items_children items 0,list,map_cons,commas_cons,index]
    simp [flatMap_map]
  | object entries =>
    have list : (entries.map fun (key,value) => (PathSegment.Key key,value)) = first :: rest := kids
    have keyed : isIndex first.1 = false := by
      cases entries with
      | nil => cases list
      | cons =>
        cases list
        rfl
    rw [write_compact,compact_entries_children,list,map_cons,commas_cons,keyed]
    simp [flatMap_map]
  | _ => cases kids

theorem feed_container {v : JsonValue} (streamable : Streamable v) (container : isContainer v = true)
    (some_ : children v ≠ []) (plain : ∀ c ∈ children v, Plain c.1)
    (each : ∀ c ∈ children v, Feeds p c.2 fun path args => Enumerated (leaves path c.2) args) :
    Feeds p v fun path args => Enumerated (leaves path v) args := by
  obtain ⟨first,rest,kids⟩ := exists_cons_of_ne_nil some_
  obtain ⟨fresh,grown⟩ := children_grow streamable kids
  intro acc text stack extra told path s args filled settled diverges located absent spelled
  have below : ∀ c ∈ children v, Located (segments stack ++ path ++ [s] ++ [c.1]) := by
    intro c mem
    obtain ⟨⟨key,others,starts⟩,good⟩ := located
    refine ⟨⟨key,others ++ [c.1],by rw [starts]; rfl⟩,fun t inside => ?_⟩
    rcases List.mem_append.mp inside with earlier | last
    · exact good t earlier
    · cases mem_singleton.mp last
      exact plain c mem
  have missing : get_at (.object acc.args) (segments stack ++ path ++ [s] ++ [first.1]) = none := by
    rw [get_at_append,absent]
    rfl
  rw [leaves_children _ _ container,kids,flatMap_cons] at spelled
  obtain ⟨a,b,rfl,spelledFirst,spelledRest⟩ := enumerated_append spelled
  rw [kids] at each below
  have assoc : segments stack ++ (path ++ [s]) = segments stack ++ path ++ [s] := (append_assoc _ _ _).symm
  obtain ⟨acc₁,delta₁,extra₁,fed₁,args₁,settled₁,head₁⟩ := each first mem_cons_self acc text stack extra told
    (path ++ [s]) first.1 a filled settled (by
      intro e head t next
      refine diverges e head t ?_
      cases path <;> exact next)
    (by rw [assoc]; exact below first mem_cons_self) (by rw [assoc]; exact missing) (by rw [assoc]; exact spelledFirst)
  have reachedNow : reached stack (path ++ [s]) first.1 = reached stack path s ++ [⟨s,isIndex first.1,1⟩] := by
    rw [reached,open_from_append,bump_append]
    rfl
  have leadNow : lead stack (path ++ [s]) first.1 =
      lead stack path s ++ (if isIndex first.1 then '[' else '\x7b') :: keyText first.1 := by
    rw [lead,open_from_append,bump_append,lead]
    simp
  rw [reachedNow,leadNow] at settled₁
  rw [assoc,set_at_below,absent] at args₁
  have path_eq : segments stack ++ path ++ [s] = segments (reached stack path s ++ [⟨s,isIndex first.1,1⟩]) := by
    rw [segments_append (reached_ne_nil filled),reached,segments_bump,(open_from_frame s path stack filled).2]
  obtain ⟨acc₂,delta₂,extra₂,fed₂,args₂,settled₂⟩ := feed_rest (.object acc.args) (reached stack path s) _ rest
    (fun c mem => below c (mem_cons_of_mem _ mem)) (fun c mem => each c (mem_cons_of_mem _ mem))
    acc₁ (text ++ delta₁) _ extra₁ _ _ b path_eq (Nat.one_pos) settled₁ args₁ (fun e head => by
      rw [head₁ e head,child_set_at]
      rfl) fresh spelledRest
  rw [Option.getD_none,grown] at args₂
  refine ⟨acc₂,delta₁ ++ delta₂,⟨s,isIndex first.1,1 + rest.length⟩ :: extra₂,?_,args₂,⟨?_,?_⟩,?_⟩
  · rw [process_args_append,fed₁]
    dsimp only
    rw [fed₂]
  · rw [settled₂.opened]
    simp
  · have closes := settled₂.closes
    rw [compact_children kids,reverse_cons,map_append,map_singleton,closer]
    simp only [← append_assoc] at closes ⊢
    rw [closes]
    simp
  · intro e head
    cases head
    rfl

theorem feeds {v : JsonValue} (streamable : Streamable v) : Feeds p v fun path args => Enumerated (leaves path v) args := by
  have leaf : ∀ v : JsonValue, (∀ path, leaves path v = [(path,v)]) →
      Feeds p v fun path args => Enumerated (leaves path v) args := by
    intro v alone acc text stack extra told path s args some_ settled diverges located absent spelled
    rw [alone] at spelled
    cases spelled with
    | cons spelled others =>
      cases others
      rw [append_nil]
      exact feed_leaf v acc text stack extra told path s _ some_ settled diverges located absent spelled
  induction streamable with
  | null => exact leaf _ fun _ => rfl
  | bool => exact leaf _ fun _ => rfl
  | number => exact leaf _ fun _ => rfl
  | string => exact leaf _ fun _ => rfl
  | @array items some_ counted each ih =>
    refine feed_container (.array some_ counted each) rfl ?_ ?_ ?_
    · simpa [children] using some_
    · intro c mem
      obtain ⟨⟨item,index⟩,inside,rfl⟩ := mem_map.mp mem
      have bound := (mem_zipIdx inside).2.1
      show index < 2 ^ 64
      omega
    · intro c mem
      obtain ⟨⟨item,_⟩,inside,rfl⟩ := mem_map.mp mem
      exact ih item (fst_mem_of_mem_zipIdx inside)
  | @object entries some_ once plain each ih =>
    refine feed_container (.object some_ once plain each) rfl ?_ ?_ ?_
    · simpa [children] using some_
    · intro c mem
      obtain ⟨entry,inside,rfl⟩ := mem_map.mp mem
      exact plain entry inside
    · intro c mem
      obtain ⟨entry,inside,rfl⟩ := mem_map.mp mem
      exact ih entry inside

/-! ### The object -/

/-- An object whose members are streamed leaf by leaf. -/
def StreamableObject (o : JsonObject) : Prop := o = [] ∨ Streamable (.object o)

theorem settled_new : Settled .new [] [rootEntry] [] ['\x7b'] := ⟨rfl,rfl⟩

theorem feed_object {o : JsonObject} (streamable : StreamableObject o) {args : List PartialArg}
    (spelled : Enumerated (leaves [] (.object o)) args) :
    ∃ acc delta, JsonAccumulator.new.process_args p args = (acc,delta) ∧ acc.args = o ∧
      delta <+: write_compact p (.object o) := by
  rcases streamable with rfl | streamable
  · cases spelled
    exact ⟨.new,[],rfl,rfl, nil_prefix⟩
  · obtain ⟨some_,once,plain,each⟩ : o ≠ [] ∧ (o.map (·.1)).Nodup ∧ (∀ entry ∈ o, Plain (.Key entry.1)) ∧
        ∀ entry ∈ o, Streamable entry.2 := by
      cases streamable with
      | object some_ once plain each => exact ⟨some_,once,plain,each⟩
    have some_kids : children (.object o) ≠ [] := by simpa [children] using some_
    obtain ⟨first,rest,kids⟩ := exists_cons_of_ne_nil some_kids
    have known : ∀ c ∈ first :: rest, Located [c.1] ∧ Streamable c.2 := by
      intro c mem
      rw [← kids] at mem
      obtain ⟨entry,inside,rfl⟩ := mem_map.mp mem
      refine ⟨⟨⟨entry.1,[],rfl⟩,fun s last => ?_⟩,each entry inside⟩
      cases mem_singleton.mp last
      exact plain entry inside
    obtain ⟨fresh,grown⟩ := children_grow streamable kids
    obtain ⟨key,named⟩ : ∃ key, first.1 = .Key key := by
      obtain ⟨key,_,starts⟩ := (known first mem_cons_self).1.keyed
      exact ⟨key,(List.cons.inj starts).1⟩
    have keyed : isIndex first.1 = false := by rw [named]; rfl
    rw [leaves_children _ _ rfl,kids,flatMap_cons] at spelled
    obtain ⟨a,b,rfl,spelledFirst,spelledRest⟩ := enumerated_append spelled
    obtain ⟨acc₁,delta₁,extra₁,fed₁,args₁,settled₁,head₁⟩ := feeds (known first mem_cons_self).2 .new [] [rootEntry] []
      ['\x7b'] [] first.1 a (by simp) settled_new (fun e head => by cases head) (known first mem_cons_self).1
      (by rw [named]; rfl) spelledFirst
    have made : set_at (.object []) [first.1] first.2 = set_at .null [first.1] first.2 := by
      rw [named]
      rfl
    have args_eq : object acc₁.args = set_at (.object []) [] (set_at .null [first.1] first.2) :=
      args₁.trans made
    obtain ⟨acc₂,delta₂,extra₂,fed₂,args₂,settled₂⟩ := feed_rest (.object []) [] [] rest
      (fun c mem => (known c (mem_cons_of_mem _ mem)).1)
      (fun c mem => feeds (known c (mem_cons_of_mem _ mem)).2) acc₁ _ { rootEntry with child_count := 1 } extra₁ _ _ b
      rfl Nat.one_pos settled₁ args_eq (fun e head => by
        rw [head₁ e head,child_set_at]
        rfl) fresh spelledRest
    rw [grown] at args₂
    refine ⟨acc₂,delta₁ ++ delta₂,?_,object.inj args₂,?_⟩
    · rw [process_args_append,fed₁]
      dsimp only
      rw [fed₂]
    · refine ⟨quoteDue acc₂ ++ (rootDue acc₂ ++ extra₂.reverse.map closer) ++ ['\x7d'],?_⟩
      have closes := settled₂.closes
      rw [compact_children kids,keyed]
      simp only [← append_assoc,nil_append] at closes ⊢
      rw [closes]
      simp [lead,open_from,bump,rootEntry]

theorem process_arg_text (arg : PartialArg) (acc : JsonAccumulator) (json_text : List Char) :
    ({ acc with json_text }).process_arg p arg =
      ({ (acc.process_arg p arg).1 with json_text },(acc.process_arg p arg).2) := by
  unfold process_arg
  split_ifs
  · rfl
  · dsimp only
    split
    · rfl
    · cases resolve_value p arg with
      | none => rfl
      | some resolved =>
        obtain ⟨_,_⟩ := resolved
        dsimp only
        unfold emit_navigation ensure_root
        dsimp only
        cases (parse_path (raw_path arg)).getLast? <;> cases acc.stack <;> rfl

theorem process_args_text (args : List PartialArg) : ∀ (acc : JsonAccumulator) (json_text : List Char),
    ({ acc with json_text }).process_args p args =
      ({ (acc.process_args p args).1 with json_text },(acc.process_args p args).2) := by
  induction args with
  | nil => exact fun acc json_text => rfl
  | cons _ _ ih =>
    intro acc json_text
    rw [process_args,process_args,process_arg_text]
    dsimp only
    rw [ih]

/-- Calls of `process` one after the other, each with its delta. -/
def process_batches (p : Primitives) : JsonAccumulator → List (List PartialArg) → JsonAccumulator × List (List Char)
  | acc,[] => (acc,[])
  | acc,batch :: rest =>
    let (acc,delta) := acc.process p batch
    let (acc,deltas) := process_batches p acc rest
    (acc,delta :: deltas)

theorem process_batches_flatten (batches : List (List PartialArg)) : ∀ acc : JsonAccumulator,
    process_batches p acc batches = ({ (acc.process_args p batches.flatten).1 with
      json_text := acc.json_text ++ (acc.process_args p batches.flatten).2 },(process_batches p acc batches).2) ∧
      (process_batches p acc batches).2.flatten = (acc.process_args p batches.flatten).2 := by
  induction batches with
  | nil => exact fun acc => ⟨by simp [process_batches,process_args],rfl⟩
  | cons batch rest ih =>
    intro acc
    obtain ⟨state,deltas⟩ := ih (acc.process p batch).1
    have kept : (acc.process_args p batch).1.json_text = acc.json_text :=
      congrArg (·.1.json_text) (process_args_text batch acc acc.json_text)
    have onward : (acc.process p batch).1.process_args p rest.flatten =
        ({ ((acc.process_args p batch).1.process_args p rest.flatten).1 with
          json_text := acc.json_text ++ (acc.process_args p batch).2 },
          ((acc.process_args p batch).1.process_args p rest.flatten).2) := by
      rw [← kept]
      exact process_args_text rest.flatten (acc.process_args p batch).1 _
    have text : (acc.process p batch).1.json_text = acc.json_text ++ (acc.process_args p batch).2 := by
      rw [← kept]
      rfl
    rw [onward,text] at state
    rw [onward] at deltas
    have delta : (acc.process p batch).2 = (acc.process_args p batch).2 := rfl
    rw [process_batches,flatten_cons,process_args_append]
    dsimp only
    rw [delta,state]
    refine ⟨by simp,?_⟩
    rw [flatten_cons]
    exact congrArg _ deltas

theorem get_from_append (before after : List Char) : get_from (before ++ after) (byteLength before) = some after := by
  induction before with
  | nil => cases after <;> rfl
  | cons c rest ih =>
    have positive : 0 < c.utf8Size := Char.utf8Size_pos c
    obtain ⟨n,size⟩ : ∃ n, byteLength (c :: rest) = n + 1 := ⟨byteLength (c :: rest) - 1,by
      simp only [byteLength,map_cons,sum_cons]
      omega⟩
    have total : byteLength (c :: rest) = c.utf8Size + byteLength rest := rfl
    rw [size,cons_append,get_from,if_pos (by omega)]
    have left : n + 1 - c.utf8Size = byteLength rest := by omega
    rw [left]
    exact ih

end

/-- Arguments that are streamed leaf by leaf, in any fragments and batches, are rebuilt: as a value, and as the
JSON text of it, of which every delta is the next piece. -/
theorem streamed_arguments (p : Primitives) (floats : p.WritesFloats) (o : JsonObject) (streamable : StreamableObject o)
    (finite : FloatsFinite (.object o)) (batches : List (List PartialArg))
    (spelled : Enumerated (leaves [] (.object o)) batches.flatten) :
    let (acc,deltas) := process_batches p .new batches
    let (final_json,closing) := acc.finalize p
    acc.args = o ∧ deltas.flatten ++ closing = final_json ∧ JsonText.Text final_json (denoted p (.object o)) ∧
      ∀ n, (deltas.take n).flatten <+: final_json := by
  obtain ⟨fed,delta,processed,args,pre⟩ := feed_object streamable spelled
  obtain ⟨state,told⟩ := @process_batches_flatten p batches .new
  rw [processed] at state told
  generalize process_batches p .new batches = streamed at state told ⊢
  obtain ⟨acc,deltas⟩ := streamed
  have acc_eq : acc = { fed with json_text := delta } := congrArg Prod.fst state
  subst acc_eq
  have told : deltas.flatten = delta := told
  obtain ⟨rest,whole⟩ := pre
  have closing : get_from (write_compact p (.object o)) (byteLength delta) = some rest := by
    rw [← whole,get_from_append]
  refine ⟨args,?_,?_,fun n => ?_⟩
  · rw [args,closing,told]
    exact whole
  · rw [args]
    exact (compact_denoted floats _ finite).text
  · rw [args,← whole,← told]
    refine List.IsPrefix.trans ?_ (prefix_append _ _)
    refine ⟨(deltas.drop n).flatten,?_⟩
    rw [← flatten_append,take_append_drop]

/-- Primitives for values without floats. -/
def integral : Primitives := ⟨fun _ => ['0'],id,fun _ data => data,fun _ => "",fun _ => none⟩

def weather : JsonObject := [("at",.object [("city",.string "Oslo"),("days",.array [.null,.bool true])])]

def weatherBatches : List (List PartialArg) :=
  [[fragment [.Key "at",.Key "city"] "Os" (some true)],
    [fragment [.Key "at",.Key "city"] "lo" none,⟨path_text [.Key "at",.Key "days",.Index 0],none,none,none,true,none⟩],
    [⟨path_text [.Key "at",.Key "days",.Index 1],none,none,some true,false,none⟩]]

theorem streamed_arguments_weather :
    let (acc,deltas) := process_batches integral .new weatherBatches
    let (final_json,closing) := acc.finalize integral
    acc.args = weather ∧ deltas.flatten ++ closing = final_json ∧ JsonText.Text final_json (denoted integral (.object weather)) ∧
      ∀ n, (deltas.take n).flatten <+: final_json := by
  have plain : ∀ key ∈ ["at","city","days"], Plain (.Key key) := by
    simp [Plain]
  refine streamed_arguments integral (fun _ _ => JsonText.number_toDigits 0) weather (.inr ?_) ⟨⟨trivial,⟨trivial,trivial,trivial⟩,
    trivial⟩,trivial⟩ weatherBatches ?_
  · refine .object (by simp [weather]) (by simp [weather]) (fun entry member => ?_) fun entry member => ?_
    · cases mem_singleton.mp member
      exact plain _ (by simp)
    · cases mem_singleton.mp member
      refine .object (by simp) (by simp) (fun entry member => ?_) fun entry member => ?_
      · simp only [mem_cons,not_mem_nil,or_false] at member
        rcases member with rfl | rfl <;> exact plain _ (by simp)
      · simp only [mem_cons,not_mem_nil,or_false] at member
        rcases member with rfl | rfl
        · exact .string _
        · refine .array (by simp) (by simp) fun item member => ?_
          simp only [mem_cons,not_mem_nil,or_false] at member
          rcases member with rfl | rfl
          · exact .null
          · exact .bool true
  · show Enumerated _ ([_,_] ++ ([_] ++ ([_] ++ [])))
    exact .cons (.string "Os" (some true) [("lo",none)] fun _ => rfl) (.cons (.null none) (.cons (.bool true none) .nil))

end Ferrin.Google
