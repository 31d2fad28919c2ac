import Ferrin.Google.Interactions.Stream
import Ferrin.StreamText.Leads

/-!
Streamed steps: how a start event and deltas carry a step of a response, and
how the events of a step lead the stream on (`Streams.keeps`).
-/
namespace Ferrin.Google.Interactions
open Ferrin.Stream Ferrin.StreamText List State
open State (retain)
open String (join reduceEq)

/-! ### Steps and their deltas -/

structure StepStream where
  index : Nat
  step : JsonValue
  started : JsonValue
  deltas : List JsonValue

/-- A delta of the step's own type, which brings members under other keys than these. -/
def IsOwn (kind : String) (without : List String) (delta : JsonValue) : Prop :=
  delta.text "type" = some kind ∧ ∃ fields, delta = .object fields ∧ ∀ field ∈ fields, field.1 ∉ without

def adding (step delta : JsonValue) : JsonValue :=
  match step,delta with
  | .object target,.object fields => .object (JsonObject.extend target (fields.filter (·.1 ≠ "type")))
  | step,_ => step

def noted (step delta : JsonValue) : JsonValue :=
  match delta.text "type" with
  | some "thought_signature" => step.assign "signature" (delta.index "signature")
  | some "arguments_delta" =>
    match delta.get "signature" with
    | some signature => step.assign "signature" signature
    | none => step
  | some "thought_summary" => step
  | _ => adding step delta

def brought (started : JsonValue) (deltas : List JsonValue) : JsonValue := deltas.foldl noted started

def SameMembers (without : List String) (a b : JsonValue) : Prop := ∀ key, key ∉ without → a.get key = b.get key

/-- A block of an output: what the start event has of it, and the deltas that bring the rest. -/
structure BlockStream where
  block : JsonValue
  begun : Option JsonValue
  deltas : List JsonValue

def isTextBlock (value : JsonValue) : Bool := value.text "type" = some "text"

def isMediaBlock (value : JsonValue) : Bool := ((value.text "type").map isMedia).getD false

def isAnnotationDelta (delta : JsonValue) : Bool := ((delta.text "type").map State.isAnnotation).getD false

/-- The text and the annotations of a text are in its pieces. Another block comes whole, at the start or as one delta. -/
def BlockStream.Brings (b : BlockStream) : Prop :=
  (isTextBlock b.block = true ∧ (∀ begun ∈ b.begun, isTextBlock begun = true) ∧
    (∀ delta ∈ b.deltas, isTextBlock delta = true ∨ isAnnotationDelta delta = true) ∧
    (b.block.text "text").getD "" = ((b.begun.bind (·.text "text")).getD "") ++
      join ((b.deltas.filter isTextBlock).map fun delta => (delta.text "text").getD "") ∧
    b.block.items "annotations" = (b.begun.map (·.items "annotations")).getD [] ++
      (b.deltas.filter (!isTextBlock ·)).flatMap (·.items "annotations")) ∨
  isTextBlock b.block = false ∧ (b.begun = some b.block ∧ b.deltas = [] ∨
    b.begun = none ∧ isMediaBlock b.block = true ∧ ∃ delta, b.deltas = [delta] ∧
      SameMembers [] b.block delta)

/-- The blocks of an output: those of the start event, the last of which may go on, and then the others. -/
def BringsOutput (step started : JsonValue) (deltas : List JsonValue) : Prop :=
  (∀ delta ∈ deltas, IsOwn "model_output" ["content"] delta ∨ delta.text "type" ≠ some "model_output") ∧
    ∃ blocks : List BlockStream, (∀ b ∈ blocks, b.Brings) ∧
      blocks.Pairwise (fun a b => b.begun.isSome → a.deltas = []) ∧
      step.items "content" = blocks.map BlockStream.block ∧
      started.items "content" = blocks.filterMap BlockStream.begun ∧
      deltas.filter (·.text "type" ≠ some "model_output") = blocks.flatMap BlockStream.deltas

def summaryPiece (delta : JsonValue) : Option String :=
  if delta.text "type" = some "thought_summary" then (delta.index "content").text "text" else none

def continuedBy (texts pieces : List String) : List String :=
  if pieces = [] then texts else texts.dropLast ++ [texts.getLast?.getD "" ++ join pieces]

def BringsThought (step started : JsonValue) (deltas : List JsonValue) : Prop :=
  (∀ delta ∈ deltas, IsOwn "thought" ["id","name","summary"] delta ∨ (summaryPiece delta).isSome ∨
    delta.text "type" = some "thought_signature") ∧
    SameMembers ["summary"] step (brought started deltas) ∧
    summary step = continuedBy (summary started) (deltas.filterMap summaryPiece)

def argumentsPiece (delta : JsonValue) : Option String :=
  if delta.text "type" = some "arguments_delta" then delta.text "arguments" else none

/-- The arguments are those of the members, unless their text is streamed. -/
def BringsFunction (config : Config) (step started : JsonValue) (deltas : List JsonValue) : Prop :=
  (∀ delta ∈ deltas, IsOwn "function_call" ["id","name"] delta ∨ (argumentsPiece delta).isSome) ∧
    SameMembers ["arguments"] step (brought started deltas) ∧
    if join (deltas.filterMap argumentsPiece) = "" then step.get "arguments" = (brought started deltas).get "arguments"
    else ∃ arguments, step.get "arguments" = some arguments ∧
      config.parse_json (join (deltas.filterMap argumentsPiece)) = some arguments

def isWhole (kind : String) : Bool :=
  kind = "processing_call" || kind = "processing_result" || isBuiltinCall kind || isResult kind

def BringsWhole (kind : String) (step started : JsonValue) (deltas : List JsonValue) : Prop :=
  isWhole kind = true ∧ (isBuiltinCall kind → (step.text "id").isSome) ∧ (isResult kind → (step.text "call_id").isSome) ∧
    (∀ delta ∈ deltas, IsOwn kind ["id","name"] delta) ∧ SameMembers [] step (brought started deltas)

def StepStream.Brings (config : Config) (b : StepStream) : Prop :=
  (∃ members, b.started = .object members) ∧ ∃ kind, b.step.text "type" = some kind ∧ b.started.text "type" = some kind ∧
    if kind = "model_output" then BringsOutput b.step b.started b.deltas
    else if kind = "thought" then BringsThought b.step b.started b.deltas
    else if kind = "function_call" then BringsFunction config b.step b.started b.deltas
    else BringsWhole kind b.step b.started b.deltas

def IsEvent (kind : String) (index : Nat) (event : JsonValue) : Prop :=
  event.text "event_type" = some kind ∧ (event.index "index").as_u64 = some index

def StepStream.Streams (b : StepStream) (events : List JsonValue) : Prop :=
  ∃ start deltas stop, events = start :: deltas ++ [stop] ∧
    (IsEvent "step.start" b.index start ∧ start.index "step" = b.started) ∧
    List.Forall₂ (fun event delta => IsEvent "step.delta" b.index event ∧ event.index "delta" = delta) deltas b.deltas ∧
    IsEvent "step.stop" b.index stop

theorem get_assign (members : JsonObject) (key other : String) (value : JsonValue) :
    ((JsonValue.object members).assign key value).get other =
      if other = key then some value else (JsonValue.object members).get other :=
  JsonObject.lookup_insert members key other value

section
variable {without : List String} {a b : JsonValue} {key : String}

theorem SameMembers.index (same : SameMembers without a b) (known : key ∉ without) : a.index key = b.index key := by
  rw [JsonValue.index,JsonValue.index,same key known]

theorem SameMembers.text (same : SameMembers without a b) (known : key ∉ without) : a.text key = b.text key := by
  rw [JsonValue.text,JsonValue.text,same.index known]

theorem SameMembers.items (same : SameMembers without a b) (known : key ∉ without) : a.items key = b.items key := by
  rw [JsonValue.items,JsonValue.items,same.index known]

variable (config : Config)

theorem part_metadata_same (same : SameMembers without a b) (interaction_id : Option String)
    (apart : ∀ key ∈ ["type","signature","id","call_id"], key ∉ without) :
    part_metadata config a interaction_id = part_metadata config b interaction_id := by
  have kind : "type" ∉ without := apart _ (by simp)
  have signature : "signature" ∉ without := apart _ (by simp)
  have id : "id" ∉ without := apart _ (by simp)
  have call_id : "call_id" ∉ without := apart _ (by simp)
  simp only [part_metadata,same.text kind,same "signature" signature,same.index id,same.index call_id]

theorem extract_same (generated : Nat) (same : SameMembers [] a b) :
    extract config generated a = extract config generated b := by
  have known (key : String) : key ∉ ([] : List String) := by simp
  simp only [extract,same.items (known _),same.text (known _)]

theorem step_same (generated : Nat) (same : SameMembers [] a b) (interaction_id : Option String)
    (aliases : List (String × String)) :
    step config generated a interaction_id aliases = step config generated b interaction_id aliases := by
  have known (key : String) : key ∉ ([] : List String) := by simp
  have metadata := part_metadata_same config same interaction_id (by simp)
  simp only [step,metadata,summary,call,result,wire_name,call_arguments,function_call_error,same.items (known _),
    same.text (known _),same.index (known _),same "arguments" (known _),extract_same config _ same]

end

variable {kind : String}

theorem IsOwn.merge {without : List String} {delta : JsonValue} (own : IsOwn kind without delta)
    (identity : "id" ∈ without ∧ "name" ∈ without) (step : JsonValue) : State.merge step delta = adding step delta := by
  obtain ⟨-,fields,rfl,apart⟩ := own
  cases step with
  | object =>
    have same : fields.filter (fun field => field.1 ∉ ["type","id","name"]) = fields.filter (·.1 ≠ "type") := by
      refine filter_congr fun field mem => ?_
      have other := apart field mem
      have noId : field.1 ≠ "id" := fun isId => other (isId ▸ identity.1)
      have noName : field.1 ≠ "name" := fun isName => other (isName ▸ identity.2)
      simp [noId,noName]
    rw [State.merge,adding,same]
  | _ => rfl

abbrev Events := List (JsonValue × JsonValue)

def chunksOf (events : Events) : List (ParseResult JsonValue) := events.map fun event => .Ok event.1 event.2

def EventsLead (config : Config) (include_raw : Bool) (s : State) (acc : Accumulation) (events : Events) (t : State)
    (later : Accumulation) : Prop :=
  Leads (State.machine config) include_raw s acc (chunksOf events) t later

section
variable {config : Config} {include_raw : Bool} {s t u : State} {acc later last : Accumulation} {event : JsonValue × JsonValue}
  {index : Nat}

theorem EventsLead.trans {first second : Events} (here : EventsLead config include_raw s acc first t later)
    (there : EventsLead config include_raw t later second u last) :
    EventsLead config include_raw s acc (first ++ second) u last := by
  rw [EventsLead,chunksOf,map_append]
  exact Leads.trans here there

variable (parts : List StreamPart)

theorem EventsLead.one (done : s.dispatch config event.1 = (t,.ok parts))
    (after : acc.after (retain t.emitted_sources parts).2 = .ok later) :
    EventsLead config include_raw s acc [event] { t with emitted_sources := (retain t.emitted_sources parts).1 } later := by
  refine Leads.chunk ?_ (raw_silent include_raw event.2) after
  simp only [State.machine,State.handle,State.event,done]

def State.during (s : State) (seen : List String) (generated : Nat) (function : Bool) (index : Nat) (opened : OpenStep) : State :=
  { s with open_steps := [(index,opened)],emitted_sources := seen,generated,function }

def State.between (s : State) (seen : List String) (generated : Nat) (function : Bool) : State :=
  { s with open_steps := [],emitted_sources := seen,generated,function }

variable {opened : OpenStep} {generated generated' : Nat} {function : Bool} {seen : List String} {b : StepStream}
  {events : Events}

theorem EventsLead.start {started : JsonValue}
    (idle : s.open_steps = []) (isStart : IsEvent "step.start" index event.1) (brings : event.1.index "step" = started)
    (typed : started.text "type" = some kind)
    (done : s.begin_step config index started kind = (s.during s.emitted_sources generated function index opened,.ok parts))
    (after : acc.after (retain s.emitted_sources parts).2 = .ok later) :
    EventsLead config include_raw s acc [event]
      (s.during (retain s.emitted_sources parts).1 generated function index opened) later := by
  refine EventsLead.one parts (t := s.during s.emitted_sources generated function index opened) ?_ after
  rw [dispatch,isStart.1]
  simp only [reduceEq,if_false,if_true,step_start,isStart.2,idle,lookup_nil,Option.isSome_none,
    Bool.false_eq_true,brings,typed]
  exact done

theorem EventsLead.delta {opened' : OpenStep}
    {delta : JsonValue} (isDelta : IsEvent "step.delta" index event.1) (brings : event.1.index "delta" = delta)
    (typed : delta.text "type" = some kind)
    (done : (s.during seen generated function index opened).feed config index opened delta kind =
      (s.during seen generated' function index opened',.ok parts))
    (after : acc.after (retain seen parts).2 = .ok later) :
    EventsLead config include_raw (s.during seen generated function index opened) acc [event]
      (s.during (retain seen parts).1 generated' function index opened') later := by
  refine EventsLead.one parts (t := s.during seen generated' function index opened') ?_ after
  rw [dispatch,isDelta.1]
  simp only [reduceEq,if_false,if_true,step_delta,isDelta.2,brings,typed]
  have found : (s.during seen generated function index opened).open_steps.lookup index = some opened := by simp [during]
  rw [found]
  exact done

theorem EventsLead.stop (isStop : IsEvent "step.stop" index event.1)
    (done : (s.between seen generated function).close config opened = (s.between seen generated' function,.ok parts))
    (after : acc.after (retain seen parts).2 = .ok later) :
    EventsLead config include_raw (s.during seen generated function index opened) acc [event]
      (s.between (retain seen parts).1 generated' function) later := by
  refine EventsLead.one parts (t := s.between seen generated' function) ?_ after
  rw [dispatch,isStop.1]
  have found : (s.during seen generated function index opened).open_steps.lookup index = some opened := by simp [during]
  simp only [reduceEq,if_false,if_true,step_stop,isStop.2,found]
  simpa [during,between] using done

theorem StepStream.Streams.keeps (streams : b.Streams (events.map Prod.fst))
    (Inv : List JsonValue → State → Accumulation → Prop) (Last : State → Accumulation → Prop)
    (start : ∀ event : JsonValue × JsonValue, IsEvent "step.start" b.index event.1 → event.1.index "step" = b.started →
      ∃ t later, EventsLead config include_raw s acc [event] t later ∧ Inv [] t later)
    (step : ∀ earlier delta others, b.deltas = earlier ++ delta :: others → ∀ t later, Inv earlier t later →
      ∀ event : JsonValue × JsonValue, IsEvent "step.delta" b.index event.1 → event.1.index "delta" = delta →
        ∃ u last, EventsLead config include_raw t later [event] u last ∧ Inv (earlier ++ [delta]) u last)
    (stop : ∀ t later, Inv b.deltas t later → ∀ event : JsonValue × JsonValue, IsEvent "step.stop" b.index event.1 →
      ∃ u last, EventsLead config include_raw t later [event] u last ∧ Last u last) :
    ∃ u last, EventsLead config include_raw s acc events u last ∧ Last u last := by
  obtain ⟨first,middle,last,carried,⟨isStart,brings⟩,areDeltas,isStop⟩ := streams
  rw [cons_append] at carried
  obtain ⟨first,others,rfl,rfl,carriedRest⟩ := List.map_eq_cons_iff.mp carried
  obtain ⟨middle,_,rfl,rfl,carriedLast⟩ := List.map_eq_append_iff.mp carriedRest
  obtain ⟨last,_,rfl,rfl,nothing⟩ := List.map_eq_cons_iff.mp carriedLast
  rw [List.map_eq_nil_iff.mp nothing]
  obtain ⟨begun,said,starts,holds⟩ := start first isStart brings
  have carries : List.Forall₂ (fun chunk delta => ∃ event : JsonValue × JsonValue, chunk = .Ok event.1 event.2 ∧
      IsEvent "step.delta" b.index event.1 ∧ event.1.index "delta" = delta) (chunksOf middle) b.deltas := by
    rw [chunksOf,forall₂_map_left_iff]
    rw [forall₂_map_left_iff] at areDeltas
    exact areDeltas.imp fun event delta carries => ⟨event,rfl,carries⟩
  obtain ⟨fed,told,goes,kept⟩ : ∃ t later, Leads (State.machine config) include_raw begun said (chunksOf middle) t later ∧
      Inv b.deltas t later := Leads.keeps _ Inv holds (by
    rintro earlier delta others split t later holds _ ⟨event,rfl,isDelta,brings⟩
    exact step earlier delta others split t later holds event isDelta brings) carries
  obtain ⟨u,ended,stops,ends⟩ := stop fed told kept last isStop
  exact ⟨u,ended,EventsLead.trans starts (EventsLead.trans goes stops),ends⟩

theorem StepStream.Streams.lead (streams : b.Streams (events.map Prod.fst))
    (state : List JsonValue → State) (heard : List JsonValue → Accumulation)
    (start : ∀ event : JsonValue × JsonValue, IsEvent "step.start" b.index event.1 → event.1.index "step" = b.started →
      EventsLead config include_raw s acc [event] (state []) (heard []))
    (step : ∀ earlier delta others, b.deltas = earlier ++ delta :: others → ∀ event : JsonValue × JsonValue,
      IsEvent "step.delta" b.index event.1 → event.1.index "delta" = delta →
        EventsLead config include_raw (state earlier) (heard earlier) [event] (state (earlier ++ [delta])) (heard (earlier ++ [delta])))
    (stop : ∀ event : JsonValue × JsonValue, IsEvent "step.stop" b.index event.1 →
      EventsLead config include_raw (state b.deltas) (heard b.deltas) [event] t later) :
    EventsLead config include_raw s acc events t later := by
  obtain ⟨u,last,leads,rfl,rfl⟩ := streams.keeps (fun deltas t later => t = state deltas ∧ later = heard deltas)
    (fun u last => u = t ∧ last = later) (fun event isStart brings => ⟨_,_,start event isStart brings,rfl,rfl⟩)
    (fun earlier delta others split t later ⟨isState,isHeard⟩ event isDelta brings =>
      ⟨_,_,isState ▸ isHeard ▸ step earlier delta others split event isDelta brings,rfl,rfl⟩)
    (fun t later ⟨isState,isHeard⟩ event isStop => ⟨_,_,isState ▸ isHeard ▸ stop event isStop,rfl,rfl⟩)
  exact leads

end

end Ferrin.Google.Interactions
