import Ferrin.Library.Chunks
import Ferrin.Library.Result
import Ferrin.RetryLoop

/-!
Embeddings of several values, in calls by the limits of the model. The calls of a
window run side by side and end in any order.
-/
namespace Ferrin.Embed
open Chunks Result List
open Prod (fst)

def usize.MAX : Nat := 18446744073709551615
def u64.MAX : Nat := 18446744073709551615

def usize.saturating_add (a b : Nat) : Nat := min (a + b) usize.MAX

structure SplitState where
  chunks : List (List String)
  current : List String
  current_bytes : Nat

def SplitState.push (max_embeddings max_bytes : Nat) (s : SplitState) (value : String) : SplitState :=
  let bytes := value.utf8ByteSize
  if !s.current.isEmpty &&
      (decide (s.current.length ≥ max_embeddings) || decide (usize.saturating_add s.current_bytes bytes > max_bytes)) then
    ⟨s.chunks ++ [s.current],[value],usize.saturating_add 0 bytes⟩
  else ⟨s.chunks,s.current ++ [value],usize.saturating_add s.current_bytes bytes⟩

def SplitState.finish (s : SplitState) : List (List String) :=
  if s.current.isEmpty then s.chunks else s.chunks ++ [s.current]

/-- A chunk is closed when it holds `max_embeddings` values, or when the next value would exceed `max_bytes`. -/
def split_by_limits (values : List String) (max_embeddings max_bytes : Nat) : List (List String) :=
  (values.foldl (SplitState.push max_embeddings max_bytes) ⟨[],[],0⟩).finish

/-- What a call of the model gives: `ε` are the embeddings, `ρ` the metadata of the response. -/
structure ModelEmbedResult (ε ρ : Type) where
  embeddings : List ε
  usage : Option Nat
  provider_metadata : Option ProviderMetadata
  response : ρ
  warnings : List Warning

structure EmbedManyResult (ε ρ : Type) where
  values : List String
  embeddings : List ε
  tokens : Option Nat
  warnings : List Warning
  responses : List ρ
  provider_metadata : Option ProviderMetadata

structure EmbeddingModel where
  max_embeddings_per_call : Option Nat
  max_input_bytes_per_call : Option Nat
  supports_parallel_calls : Bool

section
variable {ε ρ : Type}

def invalid_count (expected received : Nat) : RetryLoop.Error :=
  .Provider (.Reported (.invalid_response_data s!"expected {expected} embeddings, received {received}"))

/-- `ChunkCall::run`, with what the retries of the call end in. -/
def chunk_run (outcome : Nat → List String → Except RetryLoop.Error (ModelEmbedResult ε ρ)) (index : Nat) (values : List String) :
    Except RetryLoop.Error (ModelEmbedResult ε ρ) := do
  let result ← outcome index values
  if result.embeddings.length ≠ values.length then throw (invalid_count values.length result.embeddings.length)
  return result

structure Tasks where
  order : List (Nat × List String) → List (Nat × List String)
  order_perm : ∀ window, (order window).Perm window
  join_error : Nat → Option String

def join_next (tasks : Tasks) (outcome : Nat → List String → Except RetryLoop.Error (ModelEmbedResult ε ρ))
    (results : List (Option (ModelEmbedResult ε ρ))) (task : Nat × List String) :
    Except RetryLoop.Error (List (Option (ModelEmbedResult ε ρ))) :=
  match tasks.join_error task.1 with
  | some error => .error (.Other s!"embedding task failed: {error}")
  | none =>
    if task.1 < results.length then do
      let result ← chunk_run outcome task.1 task.2
      return put results (task.1,result)
    else .ok results

def run_window (tasks : Tasks) (outcome : Nat → List String → Except RetryLoop.Error (ModelEmbedResult ε ρ))
    (results : List (Option (ModelEmbedResult ε ρ))) :
    List (Nat × List String) → Except RetryLoop.Error (List (Option (ModelEmbedResult ε ρ)))
  | [task] => do
    let result ← chunk_run outcome task.1 task.2
    return put results (task.1,result)
  | window => (tasks.order window).foldlM (join_next tasks outcome) results

/-- `target.entry(provider).or_default().extend(metadata)`, with the keys in their order. -/
def extend_entry (provider : String) (metadata : JsonObject) : ProviderMetadata → ProviderMetadata
  | [] => [(provider,JsonObject.extend [] metadata)]
  | (key,value) :: rest =>
    if key = provider then (key,JsonObject.extend value metadata) :: rest
    else if provider < key then (provider,JsonObject.extend [] metadata) :: (key,value) :: rest
    else (key,value) :: extend_entry provider metadata rest

def accumulate_embedding_metadata (target source : Option ProviderMetadata) : Option ProviderMetadata :=
  match source with
  | none => target
  | some source => some (source.foldl (fun target entry => extend_entry entry.1 entry.2 target) (target.getD []))

def EmbedManyResult.push (total : EmbedManyResult ε ρ) (result : ModelEmbedResult ε ρ) : EmbedManyResult ε ρ where
  values := total.values
  embeddings := total.embeddings ++ result.embeddings
  tokens :=
    match total.tokens,result.usage with
    | some tokens,some usage => some (min (tokens + usage) u64.MAX)
    | _,_ => none
  warnings := total.warnings ++ result.warnings
  responses := total.responses ++ [result.response]
  provider_metadata := accumulate_embedding_metadata total.provider_metadata result.provider_metadata

def chunks_of (model : EmbeddingModel) (values : List String) : List (List String) :=
  if model.max_embeddings_per_call.isNone && model.max_input_bytes_per_call.isNone then [values]
  else
    split_by_limits values (model.max_embeddings_per_call.getD usize.MAX)
      (model.max_input_bytes_per_call.getD usize.MAX)

def parallel (model : EmbeddingModel) (max_parallel_calls : Option Nat) : Nat :=
  if model.supports_parallel_calls then max (max_parallel_calls.getD usize.MAX) 1 else 1

def run_calls (model : EmbeddingModel) (tasks : Tasks)
    (outcome : Nat → List String → Except RetryLoop.Error (ModelEmbedResult ε ρ)) (max_parallel_calls : Option Nat)
    (values : List String) : Except RetryLoop.Error (EmbedManyResult ε ρ) := do
  if model.max_embeddings_per_call = some 0 then
    throw (.InvalidArgument "max_embeddings_per_call" "must be greater than 0")
  if model.max_input_bytes_per_call = some 0 then
    throw (.InvalidArgument "max_input_bytes_per_call" "must be greater than 0")
  let indexed := (chunks_of model values).mapIdx fun index chunk => (index,chunk)
  let results ← (chunks (parallel model max_parallel_calls) indexed).foldlM (run_window tasks outcome)
    (List.replicate indexed.length none)
  let total := (results.filterMap id).foldl EmbedManyResult.push ⟨values,[],some 0,[],[],none⟩
  if total.embeddings.length ≠ values.length then throw (invalid_count values.length total.embeddings.length)
  return total

end

/-! ### The split -/

def total_bytes (chunk : List String) : Nat := (chunk.map String.utf8ByteSize).sum

def fullFor (max_embeddings max_bytes : Nat) (current : List String) (value : String) : Bool :=
  decide (current.length ≥ max_embeddings) ||
    decide (min (total_bytes current + value.utf8ByteSize) usize.MAX > max_bytes)

theorem split_from (max_embeddings max_bytes : Nat) (values : List String) :
    ∀ (chunks : List (List String)) (current : List String),
      (values.foldl (SplitState.push max_embeddings max_bytes)
          ⟨chunks,current,min (total_bytes current) usize.MAX⟩).finish =
      chunks ++ cut (fullFor max_embeddings max_bytes) current values := by
  induction values with
  | nil =>
    intro chunks current
    cases current <;> simp [cut,SplitState.finish]
  | cons value _ ih =>
    intro chunks current
    have sum : usize.saturating_add (min (total_bytes current) usize.MAX) value.utf8ByteSize =
        min (total_bytes current + value.utf8ByteSize) usize.MAX := by
      rw [usize.saturating_add]
      omega
    have alone : usize.saturating_add 0 value.utf8ByteSize = min (total_bytes [value]) usize.MAX := by
      simp [usize.saturating_add,total_bytes]
    have longer : min (total_bytes current + value.utf8ByteSize) usize.MAX =
        min (total_bytes (current ++ [value])) usize.MAX := by
      simp [total_bytes]
    have step : SplitState.push max_embeddings max_bytes ⟨chunks,current,min (total_bytes current) usize.MAX⟩ value =
        if !current.isEmpty && fullFor max_embeddings max_bytes current value then
          ⟨chunks ++ [current],[value],min (total_bytes [value]) usize.MAX⟩
        else ⟨chunks,current ++ [value],min (total_bytes (current ++ [value])) usize.MAX⟩ := by
      rw [SplitState.push,← longer,← alone,fullFor]
      simp only [sum]
    rw [foldl_cons,cut,step]
    split
    · rw [ih,append_assoc]
      rfl
    · exact ih chunks (current ++ [value])

theorem split_by_limits_eq (values : List String) (max_embeddings max_bytes : Nat) :
    split_by_limits values max_embeddings max_bytes = cut (fullFor max_embeddings max_bytes) [] values :=
  split_from max_embeddings max_bytes values [] []

theorem flatten_split (values : List String) (max_embeddings max_bytes : Nat) :
    (split_by_limits values max_embeddings max_bytes).flatten = values := by
  rw [split_by_limits_eq,flatten_cut,nil_append]

variable {values : List String}

/-- Every chunk is within both limits, a single value apart. What a machine holds has at most `usize::MAX` bytes. -/
theorem split_within {max_embeddings max_bytes : Nat} (some_fit : 0 < max_embeddings)
    {chunk : List String} (mem : chunk ∈ split_by_limits values max_embeddings max_bytes) :
    chunk ≠ [] ∧ chunk.length ≤ max_embeddings ∧
      (chunk.length = 1 ∨ min (total_bytes chunk) usize.MAX ≤ max_bytes) := by
  rw [split_by_limits_eq] at mem
  refine all_cut (P := fun chunk => chunk.length ≤ max_embeddings ∧
    (chunk.length = 1 ∨ min (total_bytes chunk) usize.MAX ≤ max_bytes)) ?_ ?_ values [] (.inl rfl) chunk mem
  · exact fun value => ⟨some_fit,.inl rfl⟩
  · intro current value _ _ stays
    simp only [fullFor,Bool.or_eq_false_iff,decide_eq_false_iff_not] at stays
    refine ⟨?_,.inr ?_⟩
    · rw [length_append,length_singleton]
      omega
    · have sum : total_bytes (current ++ [value]) = total_bytes current + value.utf8ByteSize := by simp [total_bytes]
      rw [sum]
      omega

theorem flatten_chunks_of (model : EmbeddingModel) (values : List String) :
    (chunks_of model values).flatten = values := by
  rw [chunks_of]
  split
  · simp
  · exact flatten_split _ _ _

section
variable {ε ρ : Type} {tasks : Tasks} {outcome : Nat → List String → Except RetryLoop.Error (ModelEmbedResult ε ρ)}
  {answer : Nat × List String → ModelEmbedResult ε ρ}

def Answers (outcome : Nat → List String → Except RetryLoop.Error (ModelEmbedResult ε ρ)) (task : Nat × List String)
    (result : ModelEmbedResult ε ρ) : Prop :=
  outcome task.1 task.2 = .ok result ∧ result.embeddings.length = task.2.length

variable {task : Nat × List String} {results results' : List (Option (ModelEmbedResult ε ρ))}
  {window : List (Nat × List String)} {windows : List (List (Nat × List String))} {chunked : List (List String)}
  {n : Nat} {model : EmbeddingModel} {max_parallel_calls : Option Nat} {answers : List (ModelEmbedResult ε ρ)}

theorem chunk_run_ok {result : ModelEmbedResult ε ρ} :
    chunk_run outcome task.1 task.2 = .ok result ↔ Answers outcome task result := by
  rw [chunk_run,Answers,bind_ok]
  constructor
  · rintro ⟨given,called,checked⟩
    by_cases same : given.embeddings.length = task.2.length
    · simp only [same,ne_eq,not_true_eq_false,if_false] at checked
      cases checked
      exact ⟨called,same⟩
    · simp only [same,ne_eq,not_false_eq_true,if_true] at checked
      cases checked
  · rintro ⟨called,same⟩
    refine ⟨result,called,?_⟩
    simp only [same,ne_eq,not_true_eq_false,if_false]
    rfl

theorem length_put (slots : List (Option (ModelEmbedResult ε ρ))) (entry : Nat × ModelEmbedResult ε ρ) :
    (put slots entry).length = slots.length := List.length_set

theorem join_next_ok (inside : task.1 < results.length) :
    join_next tasks outcome results task = .ok results' ↔
      tasks.join_error task.1 = none ∧ ∃ result, Answers outcome task result ∧ put results (task.1,result) = results' := by
  rw [join_next]
  cases tasks.join_error task.1 with
  | some => simp
  | none =>
    rw [if_pos inside,bind_ok]
    simp only [chunk_run_ok,true_and]
    refine exists_congr fun result => and_congr_right fun _ => ?_
    constructor
    · intro same
      cases same
      rfl
    · intro same
      rw [same]
      rfl

theorem join_all (l : List (Nat × List String)) (joined : ∀ task ∈ l, tasks.join_error task.1 = none)
    (answered : ∀ task ∈ l, Answers outcome task (answer task)) :
    ∀ results : List (Option (ModelEmbedResult ε ρ)), (∀ task ∈ l, task.1 < results.length) →
      l.foldlM (join_next tasks outcome) results =
        .ok ((l.map fun task => (task.1,answer task)).foldl put results) := by
  induction l with
  | nil => exact fun _ _ => rfl
  | cons task _ ih =>
    intro results inside
    have first : join_next tasks outcome results task = .ok (put results (task.1,answer task)) :=
      (join_next_ok (inside task (by simp))).mpr ⟨joined task (by simp),_,answered task (by simp),rfl⟩
    rw [foldlM_cons,first]
    refine ih (fun t mem => joined t (by simp [mem])) (fun t mem => answered t (by simp [mem])) _ ?_
    intro t mem
    rw [length_put]
    exact inside t (by simp [mem])

theorem join_each (l : List (Nat × List String)) : ∀ results results' : List (Option (ModelEmbedResult ε ρ)),
    (∀ task ∈ l, task.1 < results.length) → l.foldlM (join_next tasks outcome) results = .ok results' →
      results'.length = results.length ∧
        ∀ task ∈ l, tasks.join_error task.1 = none ∧ ∃ result, Answers outcome task result := by
  induction l with
  | nil =>
    intro results results' _ done
    cases done
    exact ⟨rfl,fun task mem => by cases mem⟩
  | cons first _ ih =>
    intro results results' inside done
    rw [foldlM_cons] at done
    obtain ⟨_,joined,done⟩ := bind_ok.mp done
    obtain ⟨ended,result,answers,rfl⟩ := (join_next_ok (inside first (by simp))).mp joined
    obtain ⟨same,others⟩ := ih _ _ (fun task mem => by
      rw [length_put]
      exact inside task (by simp [mem])) done
    refine ⟨same.trans (length_put _ _),fun task mem => ?_⟩
    rcases List.mem_cons.mp mem with rfl | later
    · exact ⟨ended,result,answers⟩
    · exact others task later

/-- What a window needs to succeed: that each call answers, and, unless it runs by itself, that each task ends. -/
structure Succeeds (tasks : Tasks) (outcome : Nat → List String → Except RetryLoop.Error (ModelEmbedResult ε ρ))
    (answer : Nat × List String → ModelEmbedResult ε ρ) (window : List (Nat × List String)) : Prop where
  answered : ∀ task ∈ window, Answers outcome task (answer task)
  joined : window.length = 1 ∨ ∀ task ∈ window, tasks.join_error task.1 = none

theorem run_window_single (results : List (Option (ModelEmbedResult ε ρ))) (task : Nat × List String) :
    run_window tasks outcome results [task] =
      (do let result ← chunk_run outcome task.1 task.2; return put results (task.1,result)) := rfl

theorem run_window_several (several : window.length ≠ 1) :
    run_window tasks outcome results window = (tasks.order window).foldlM (join_next tasks outcome) results := by
  rw [run_window]
  rintro _ rfl
  exact several rfl

theorem run_window_all (succeeds : Succeeds tasks outcome answer window) (distinct : (window.map fst).Nodup)
    (inside : ∀ task ∈ window, task.1 < results.length) :
    run_window tasks outcome results window =
      .ok ((window.map fun task => (task.1,answer task)).foldl put results) := by
  by_cases single : window.length = 1
  · obtain ⟨task,rfl⟩ := List.length_eq_one_iff.mp single
    have called : chunk_run outcome task.1 task.2 = .ok (answer task) :=
      chunk_run_ok.mpr (succeeds.answered task (by simp))
    rw [run_window_single,called]
    rfl
  · have perm := tasks.order_perm window
    have placed : ((tasks.order window).map fun task => (task.1,answer task)).Perm
        (window.map fun task => (task.1,answer task)) := perm.map _
    have apart : (((tasks.order window).map fun task => (task.1,answer task)).map fst).Nodup := by
      rw [map_map]
      exact (perm.map _).nodup_iff.mpr distinct
    rw [run_window_several single,join_all (tasks.order window)
      (fun task mem => (succeeds.joined.resolve_left single) task (perm.mem_iff.mp mem))
      (fun task mem => succeeds.answered task (perm.mem_iff.mp mem)) results
      (fun task mem => inside task (perm.mem_iff.mp mem)),foldl_put_perm placed apart]

theorem run_window_each (inside : ∀ task ∈ window, task.1 < results.length)
    (done : run_window tasks outcome results window = .ok results') :
    results'.length = results.length ∧ (∀ task ∈ window, ∃ result, Answers outcome task result) ∧
      (window.length = 1 ∨ ∀ task ∈ window, tasks.join_error task.1 = none) := by
  by_cases single : window.length = 1
  · obtain ⟨task,rfl⟩ := List.length_eq_one_iff.mp single
    rw [run_window_single] at done
    obtain ⟨result,called,done⟩ := bind_ok.mp done
    cases done
    refine ⟨length_put _ _,fun t mem => ?_,.inl rfl⟩
    rw [mem_singleton] at mem
    subst mem
    exact ⟨result,chunk_run_ok.mp called⟩
  · rw [run_window_several single] at done
    have perm := tasks.order_perm window
    obtain ⟨same,each⟩ := join_each (tasks.order window) results results'
      (fun task mem => inside task (perm.mem_iff.mp mem)) done
    exact ⟨same,fun task mem => (each task (perm.mem_iff.mpr mem)).2,
      .inr fun task mem => (each task (perm.mem_iff.mpr mem)).1⟩

theorem run_windows_each :
    ∀ results results' : List (Option (ModelEmbedResult ε ρ)),
      (∀ window ∈ windows, ∀ task ∈ window, task.1 < results.length) →
      windows.foldlM (run_window tasks outcome) results = .ok results' →
      ∀ window ∈ windows, (∀ task ∈ window, ∃ result, Answers outcome task result) ∧
        (window.length = 1 ∨ ∀ task ∈ window, tasks.join_error task.1 = none) := by
  induction windows with
  | nil =>
    intro _ _ _ _ window mem
    cases mem
  | cons first _ ih =>
    intro results results' inside done window mem
    rw [foldlM_cons] at done
    obtain ⟨next,here,done⟩ := bind_ok.mp done
    obtain ⟨same,each⟩ := run_window_each (inside first (by simp)) here
    rcases List.mem_cons.mp mem with rfl | later
    · exact each
    · refine ih next results' (fun w there task within => ?_) done window later
      rw [same]
      exact inside w (by simp [there]) task within

theorem length_foldl_put (done : List (Nat × ModelEmbedResult ε ρ)) :
    ∀ slots, (done.foldl put slots).length = slots.length := by
  induction done with
  | nil => exact fun _ => rfl
  | cons entry _ ih => exact fun slots => (ih _).trans (length_put slots entry)

theorem run_windows :
    ∀ results : List (Option (ModelEmbedResult ε ρ)), (∀ window ∈ windows, Succeeds tasks outcome answer window) →
      (∀ window ∈ windows, (window.map fst).Nodup ∧ ∀ task ∈ window, task.1 < results.length) →
      windows.foldlM (run_window tasks outcome) results =
        .ok ((windows.flatten.map fun task => (task.1,answer task)).foldl put results) := by
  induction windows with
  | nil => exact fun _ _ _ => rfl
  | cons window _ ih =>
    intro results succeeds sound
    have here := sound window (by simp)
    rw [foldlM_cons,run_window_all (succeeds window (by simp)) here.1 here.2]
    rw [flatten_cons,map_append,foldl_append]
    refine ih _ (fun w mem => succeeds w (by simp [mem])) fun w mem => ?_
    refine ⟨(sound w (by simp [mem])).1,fun task inside => ?_⟩
    rw [length_foldl_put]
    exact (sound w (by simp [mem])).2 task inside

theorem indexed_fst (chunks : List (List String)) :
    (chunks.mapIdx fun index chunk => (index,chunk)).map fst = List.range chunks.length := by
  apply ext_getElem
  · simp
  · intro n _ _
    simp

theorem windows_sound (mem : window ∈ chunks n (chunked.mapIdx fun index chunk => (index,chunk))) :
    (window.map fst).Nodup ∧ ∀ task ∈ window, task.1 < chunked.length := by
  have part : window.Sublist (chunked.mapIdx fun index chunk => (index,chunk)) := by
    have within := sublist_flatten_of_mem mem
    rwa [flatten_chunks] at within
  have firsts : (window.map fst).Sublist (range chunked.length) := indexed_fst chunked ▸ part.map fst
  refine ⟨firsts.nodup nodup_range,fun task inside => ?_⟩
  exact List.mem_range.mp (firsts.subset (mem_map_of_mem inside))

theorem answers_placed (chunked : List (List String)) (answer : Nat × List String → ModelEmbedResult ε ρ) :
    ((chunked.mapIdx fun index chunk => (index,chunk)).map fun task => (task.1,answer task)) =
      (chunked.mapIdx fun index chunk => answer (index,chunk)).mapIdx fun index result => (index,result) := by
  apply ext_getElem
  · simp
  · intro n _ _
    simp

theorem run_all (succeeds : ∀ window ∈ chunks n (chunked.mapIdx fun index chunk => (index,chunk)),
      Succeeds tasks outcome answer window) :
    (chunks n (chunked.mapIdx fun index chunk => (index,chunk))).foldlM (run_window tasks outcome)
        (List.replicate (chunked.mapIdx fun index chunk => (index,chunk)).length none) =
      .ok ((chunked.mapIdx fun index chunk => answer (index,chunk)).map some) := by
  have sound : ∀ window ∈ chunks n (chunked.mapIdx fun index chunk => (index,chunk)),
      (window.map fst).Nodup ∧ ∀ task ∈ window, task.1 <
        (replicate (chunked.mapIdx fun index chunk => (index,chunk)).length
          (none : Option (ModelEmbedResult ε ρ))).length := by
    intro window mem
    have here := windows_sound mem
    simpa using here
  have placed := foldl_put_all (chunked.mapIdx fun index chunk => answer (index,chunk))
  rw [run_windows _ succeeds sound,flatten_chunks,answers_placed,length_mapIdx]
  rw [length_mapIdx] at placed
  rw [placed]

@[simp] theorem foldl_push_values (answers : List (ModelEmbedResult ε ρ)) :
    ∀ total : EmbedManyResult ε ρ, (answers.foldl .push total).values = total.values := by
  induction answers with
  | nil => exact fun _ => rfl
  | cons _ _ ih => exact fun total => ih _

@[simp] theorem foldl_push_embeddings (answers : List (ModelEmbedResult ε ρ)) :
    ∀ total : EmbedManyResult ε ρ,
      (answers.foldl .push total).embeddings = total.embeddings ++ (answers.map (·.embeddings)).flatten := by
  induction answers with
  | nil => simp
  | cons _ _ ih =>
    intro total
    rw [foldl_cons,ih]
    simp [EmbedManyResult.push]

theorem filterMap_some (answers : List (ModelEmbedResult ε ρ)) : (answers.map some).filterMap id = answers := by
  rw [filterMap_map]
  exact List.filterMap_some

def Answered (outcome : Nat → List String → Except RetryLoop.Error (ModelEmbedResult ε ρ)) (chunked : List (List String))
    (answers : List (ModelEmbedResult ε ρ)) : Prop :=
  answers.length = chunked.length ∧
    ∀ index chunk answer, chunked[index]? = some chunk → answers[index]? = some answer →
      outcome index chunk = .ok answer ∧ answer.embeddings.length = chunk.length

theorem windows_answered
    (done : (chunks n (chunked.mapIdx fun index chunk => (index,chunk))).foldlM (run_window tasks outcome)
      (List.replicate (chunked.mapIdx fun index chunk => (index,chunk)).length none) = .ok results) :
    ∃ answers, Answered outcome chunked answers ∧ results = answers.map some := by
  have each := run_windows_each _ results (fun window mem task inside => by
    rw [length_replicate,length_mapIdx]
    exact (windows_sound mem).2 task inside) done
  have all : ∀ task ∈ chunked.mapIdx fun index chunk => (index,chunk), ∃ result, Answers outcome task result := by
    intro task mem
    rw [← flatten_chunks n (chunked.mapIdx fun index chunk => (index,chunk))] at mem
    obtain ⟨window,there,inside⟩ := List.mem_flatten.mp mem
    exact (each window there).1 task inside
  cases chunked with
  | nil =>
    cases done
    exact ⟨[],⟨rfl,by simp⟩,rfl⟩
  | cons first rest =>
    have some_result : Nonempty (ModelEmbedResult ε ρ) := ⟨(all (0,first) (by simp)).choose⟩
    choose! answer answered using all
    refine ⟨(first :: rest).mapIdx fun index chunk => answer (index,chunk),⟨length_mapIdx,?_⟩,?_⟩
    · intro index chunk result here there
      rw [getElem?_mapIdx,here] at there
      cases there
      refine answered (index,chunk) (List.mem_mapIdx.mpr ?_)
      obtain ⟨inside,same⟩ := List.getElem?_eq_some_iff.mp here
      exact ⟨index,inside,by rw [same]⟩
    · have succeeds : ∀ window ∈ chunks n ((first :: rest).mapIdx fun index chunk => (index,chunk)),
          Succeeds tasks outcome answer window := by
        intro window mem
        refine ⟨fun task inside => answered task ?_,(each window mem).2⟩
        rw [← flatten_chunks n ((first :: rest).mapIdx fun index chunk => (index,chunk))]
        exact List.mem_flatten.mpr ⟨window,mem,inside⟩
      rw [run_all succeeds] at done
      cases done
      rfl

theorem run_calls_ok
    {result : EmbedManyResult ε ρ} (done : run_calls model tasks outcome max_parallel_calls values = .ok result) :
    ∃ answers, Answered outcome (chunks_of model values) answers ∧
      result = answers.foldl .push ⟨values,[],some 0,[],[],none⟩ := by
  rw [run_calls] at done
  split at done
  · cases done
  split at done
  · cases done
  obtain ⟨_,ran,done⟩ := bind_ok.mp done
  obtain ⟨answers,answered,rfl⟩ := windows_answered ran
  rw [filterMap_some] at done
  dsimp only at done
  split at done
  · cases done
  · cases done
    exact ⟨answers,answered,rfl⟩

theorem Answered.even (answered : Answered outcome chunked answers) :
    List.Forall₂ (fun chunk embeddings => chunk.length = embeddings.length) chunked
      (answers.map (·.embeddings)) := by
  rw [forall₂_iff_get]
  refine ⟨by simpa using answered.1.symm,fun index inside there => ?_⟩
  have within : index < answers.length := answered.1 ▸ inside
  have here := answered.2 index chunked[index] answers[index] (getElem?_eq_getElem inside)
    (getElem?_eq_getElem within)
  simpa using here.2.symm

theorem Answered.length (answered : Answered outcome (chunks_of model values) answers) :
    (answers.map (·.embeddings)).flatten.length = values.length := by
  rw [length_flatten,map_map]
  have lengths : answers.map (List.length ∘ (·.embeddings)) = (chunks_of model values).map List.length := by
    have each := answered.even
    rw [← forall₂_eq_eq_eq,forall₂_map_left_iff,forall₂_map_right_iff]
    rw [forall₂_map_right_iff] at each
    exact each.flip.imp fun _ _ same => same.symm
  rw [lengths,← length_flatten,flatten_chunks_of]

theorem run_calls_all
    (counted : model.max_embeddings_per_call ≠ some 0) (sized : model.max_input_bytes_per_call ≠ some 0)
    (joined : ∀ index, tasks.join_error index = none) (answered : Answered outcome (chunks_of model values) answers) :
    run_calls model tasks outcome max_parallel_calls values =
      .ok (answers.foldl .push ⟨values,[],some 0,[],[],none⟩) := by
  have results : (chunks (parallel model max_parallel_calls) ((chunks_of model values).mapIdx
        fun index chunk => (index,chunk))).foldlM (run_window tasks outcome)
      (replicate ((chunks_of model values).mapIdx fun index chunk => (index,chunk)).length none) =
        .ok (answers.map some) := by
    cases some_answer : answers with
    | nil =>
      have none_there : chunks_of model values = [] := by
        rw [← length_eq_zero_iff,← answered.1,some_answer,length_nil]
      rw [none_there]
      rfl
    | cons first =>
      rw [← some_answer]
      have same : answers =
          (chunks_of model values).mapIdx fun index chunk => (answers[index]?.getD first) := by
        apply ext_getElem
        · rw [length_mapIdx,answered.1]
        · intro n inside _
          rw [getElem_mapIdx,getElem?_eq_getElem inside]
          rfl
      have succeeds : ∀ window ∈ chunks (parallel model max_parallel_calls) ((chunks_of model values).mapIdx
          fun index chunk => (index,chunk)), Succeeds tasks outcome (fun task => answers[task.1]?.getD first) window := by
        intro window mem
        refine ⟨?_,.inr fun task _ => joined task.1⟩
        intro task inside
        have there : task ∈ (chunks_of model values).mapIdx fun index chunk => (index,chunk) := by
          rw [← flatten_chunks (parallel model max_parallel_calls) ((chunks_of model values).mapIdx
            fun index chunk => (index,chunk))]
          exact List.mem_flatten.mpr ⟨window,mem,inside⟩
        obtain ⟨index,within,rfl⟩ := List.mem_mapIdx.mp there
        have here : index < answers.length := answered.1 ▸ within
        have given := answered.2 index _ answers[index] (getElem?_eq_getElem within)
          (getElem?_eq_getElem here)
        rw [getElem?_eq_getElem here]
        exact given
      exact (run_all succeeds).trans (by rw [← same])
  rw [run_calls,if_neg counted,if_neg sized]
  refine bind_ok.mpr ⟨_,results,?_⟩
  rw [filterMap_some,if_neg]
  · rfl
  · rw [foldl_push_embeddings,nil_append,answered.length]
    exact not_not_intro rfl

/-- The chunks partition the values within the limits. Whatever the order in which the calls of a window end, each
    value comes back beside the embedding that its call gave at its place in its chunk, or there is an error; there is
    one whenever a call gives a different number of embeddings, and none when all calls answer. -/
theorem embed_many_pairs :
    (∀ (values : List String) (max_embeddings max_bytes : Nat), 0 < max_embeddings →
      (split_by_limits values max_embeddings max_bytes).flatten = values ∧
      ∀ chunk ∈ split_by_limits values max_embeddings max_bytes, chunk ≠ [] ∧ chunk.length ≤ max_embeddings ∧
        (chunk.length = 1 ∨ min (total_bytes chunk) usize.MAX ≤ max_bytes)) ∧
    ∀ (model : EmbeddingModel) (tasks : Tasks) (outcome : Nat → List String → Except RetryLoop.Error (ModelEmbedResult ε ρ))
      (max_parallel_calls : Option Nat) (values : List String),
      (∀ result, run_calls model tasks outcome max_parallel_calls values = .ok result →
        ∃ answers, Answered outcome (chunks_of model values) answers ∧ result.values = values ∧
          result.embeddings.length = values.length ∧
          values.zip result.embeddings =
            (((chunks_of model values).zip (answers.map (·.embeddings))).map fun pair => pair.1.zip pair.2).flatten) ∧
      (∀ index chunk answer, (chunks_of model values)[index]? = some chunk → outcome index chunk = .ok answer →
        answer.embeddings.length ≠ chunk.length →
          ∃ error, run_calls model tasks outcome max_parallel_calls values = .error error) ∧
      (model.max_embeddings_per_call ≠ some 0 → model.max_input_bytes_per_call ≠ some 0 →
        (∀ index, tasks.join_error index = none) → ∀ answers, Answered outcome (chunks_of model values) answers →
          ∃ result, run_calls model tasks outcome max_parallel_calls values = .ok result ∧
            result.embeddings = (answers.map (·.embeddings)).flatten) := by
  refine ⟨fun values max_embeddings max_bytes some_fit => ⟨flatten_split _ _ _,fun chunk => split_within some_fit⟩,?_⟩
  intro model tasks outcome max_parallel_calls values
  refine ⟨?_,?_,?_⟩
  · intro result done
    obtain ⟨answers,answered,rfl⟩ := run_calls_ok done
    refine ⟨answers,answered,foldl_push_values _ _,?_,?_⟩
    · rw [foldl_push_embeddings,nil_append,answered.length]
    · have paired := zip_flatten answered.even
      rw [flatten_chunks_of] at paired
      rw [foldl_push_embeddings,nil_append,paired]
  · intro index chunk answer here called different
    cases done : run_calls model tasks outcome max_parallel_calls values with
    | error error => exact ⟨error,rfl⟩
    | ok result =>
      obtain ⟨answers,answered,_⟩ := run_calls_ok done
      obtain ⟨inside,_⟩ := List.getElem?_eq_some_iff.mp here
      have within : index < answers.length := answered.1 ▸ inside
      have given := answered.2 index chunk answers[index] here (getElem?_eq_getElem within)
      rw [called] at given
      cases given.1
      exact absurd given.2 different
  · intro counted sized joined answers answered
    exact ⟨_,run_calls_all counted sized joined answered,by simp⟩

end

/-- Three values in calls of two at most, the calls of a window ending in reverse. -/
def reversed : Tasks where
  order window := window.reverse
  order_perm := List.reverse_perm
  join_error _ := none

theorem embed_many_pairs_reversed :
    split_by_limits ["a","bb","ccc"] 2 100 = [["a","bb"],["ccc"]] ∧
    (split_by_limits ["a","bb","ccc"] 2 100).flatten = ["a","bb","ccc"] ∧
    ∃ result : EmbedManyResult Nat Unit,
      run_calls ⟨some 2,none,true⟩ reversed
        (fun _ values => .ok ⟨values.map String.length,none,none,(),[]⟩) none ["a","bb","ccc"] = .ok result ∧
      result.embeddings = [1,2,3] := by
  have split : split_by_limits ["a","bb","ccc"] 2 100 = [["a","bb"],["ccc"]] := by decide
  have chunked : chunks_of ⟨some 2,none,true⟩ ["a","bb","ccc"] = [["a","bb"],["ccc"]] := by decide
  have pairs := embed_many_pairs (ε := Nat) (ρ := Unit)
  refine ⟨split,(pairs.1 ["a","bb","ccc"] 2 100 (by decide)).1,?_⟩
  obtain ⟨result,ran,same⟩ := (pairs.2 ⟨some 2,none,true⟩ reversed
    (fun _ values => .ok ⟨values.map String.length,none,none,(),[]⟩) none ["a","bb","ccc"]).2.2 (by decide) (by decide)
    (fun _ => rfl) [⟨[1,2],none,none,(),[]⟩,⟨[3],none,none,(),[]⟩] (by
      rw [chunked]
      refine ⟨rfl,?_⟩
      rintro (_ | _ | index) chunk answer here there
      · cases here; cases there; exact ⟨rfl,rfl⟩
      · cases here; cases there; exact ⟨rfl,rfl⟩
      · cases here)
  exact ⟨result,ran,same⟩

end Ferrin.Embed
