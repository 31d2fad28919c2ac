import Ferrin.Stream.Driver

/-!
The driver as it is polled. A round of its loop sends a queued part or asks the
machine for more; after an error it never asks again. Chunks come one by one and
need not end.
-/
namespace Ferrin.Stream
open Ferrin.Brackets List

section
variable {σ χ : Type}

/-- The driver between two rounds, with the number of chunks it has taken. -/
structure Driver (σ : Type) where
  taken : Nat
  machine : Option σ
  pending : List StreamPart
  openParts : OpenParts

inductive Round (χ : Type) where
  | yields (part : StreamPart)
  | handles (chunk : ParseResult χ)
  | finishes

def Round.sent : Round χ → Option StreamPart
  | .yields part => some part
  | _ => none

def Round.polls : Round χ → Bool
  | .yields _ => false
  | .handles _ | .finishes => true

namespace Driver

def new (start : StreamPart) (state : σ) : Driver σ := ⟨0,some state,[start],.empty⟩

def enqueue (d : Driver σ) (parts : List StreamPart) : Driver σ :=
  let (queued,openParts,ended) := Stream.enqueue d.openParts parts
  { d with pending := d.pending ++ queued,openParts,machine := if ended then none else d.machine }

/-- One round of the loop in `drive_stream`, or its end. A machine that panics ends it too. -/
def round (m : StreamMachine σ χ) (include_raw : Bool) (chunks : Nat → Option (ParseResult χ)) (d : Driver σ) :
    Option (Round χ × Driver σ) :=
  match d.pending with
  | part :: rest => some (.yields part,{ d with pending := rest })
  | [] =>
    match d.machine with
    | none => none
    | some state =>
      match chunks d.taken with
      | some chunk =>
        match m.handle state chunk include_raw with
        | none => none
        | some (state,parts) =>
          some (.handles chunk,enqueue { d with taken := d.taken + 1,machine := some state } parts)
      | none => some (.finishes,enqueue { d with machine := none } (m.finish state))

/-- At most `n` rounds. -/
def rounds (m : StreamMachine σ χ) (include_raw : Bool) (chunks : Nat → Option (ParseResult χ)) :
    Nat → Driver σ → List (Round χ) × Driver σ
  | 0, d => ([],d)
  | n + 1, d =>
    match d.round m include_raw chunks with
    | none => ([],d)
    | some (round,next) =>
      let (later,last) := rounds m include_raw chunks n next
      (round :: later,last)

end Driver

/-- What the machine makes in its first `n` calls, from chunk `i` on. Its closing parts come last. -/
def calls (m : StreamMachine σ χ) (include_raw : Bool) (chunks : Nat → Option (ParseResult χ)) :
    (n i : Nat) → σ → List (List StreamPart)
  | 0, _, _ => []
  | n + 1, i, state =>
    match chunks i with
    | none => [m.finish state]
    | some chunk =>
      match m.handle state chunk include_raw with
      | none => []
      | some (state,parts) => parts :: calls m include_raw chunks n (i + 1) state

def sent (log : List (Round χ)) : List StreamPart := log.filterMap Round.sent

def polls (log : List (Round χ)) : Nat := log.countP Round.polls

@[simp] theorem sent_append (before after : List (Round χ)) : sent (before ++ after) = sent before ++ sent after :=
  filterMap_append

@[simp] theorem polls_append (before after : List (Round χ)) : polls (before ++ after) = polls before + polls after :=
  countP_append

/-! ### What a run has sent -/

variable {m : StreamMachine σ χ} {include_raw : Bool} {chunks : Nat → Option (ParseResult χ)} {start : StreamPart}
  {state : σ} {log : List (Round χ)} {d : Driver σ}

/-- Between two rounds: what was sent and what is queued is the start and what `enqueue` lets through of the
    machine's parts, and a driver that keeps its machine goes on where the machine is. -/
structure Drives (m : StreamMachine σ χ) (include_raw : Bool) (chunks : Nat → Option (ParseResult χ))
    (start : StreamPart) (state : σ) (log : List (Round χ)) (d : Driver σ) : Prop where
  whole : sent log ++ d.pending =
    start :: (enqueue .empty (calls m include_raw chunks (polls log) 0 state).flatten).1
  stopped : (enqueue .empty (calls m include_raw chunks (polls log) 0 state).flatten).2.2 = true → d.machine = none
  going : ∀ now, d.machine = some now →
    d.openParts = (enqueue .empty (calls m include_raw chunks (polls log) 0 state).flatten).2.1 ∧
      ∀ k, calls m include_raw chunks (polls log + k) 0 state =
        calls m include_raw chunks (polls log) 0 state ++ calls m include_raw chunks k d.taken now

theorem drives_new : Drives m include_raw chunks start state [] (.new start state) where
  whole := rfl
  stopped := by
    intro ended
    cases ended
  going := by
    rintro _ same
    cases same
    refine ⟨rfl,?_⟩
    intro k
    simp [polls,Driver.new,calls]

theorem enqueue_call {made : List StreamPart} (goes_on : (enqueue .empty made).2.2 = false) (parts : List StreamPart) :
    (enqueue .empty (made ++ parts)).1 = (enqueue .empty made).1 ++ (enqueue (enqueue .empty made).2.1 parts).1 ∧
      (enqueue .empty (made ++ parts)).2 = (enqueue (enqueue .empty made).2.1 parts).2 := by
  rw [enqueue_append,goes_on]
  exact ⟨rfl,rfl⟩

theorem Drives.round {next : Driver σ} {round : Round χ} (drives : Drives m include_raw chunks start state log d)
    (done : d.round m include_raw chunks = some (round,next)) :
    Drives m include_raw chunks start state (log ++ [round]) next := by
  obtain ⟨whole,stopped,going⟩ := drives
  unfold Driver.round at done
  split at done
  case h_1 part rest queued =>
    cases done
    have quiet : polls (log ++ [Round.yields part]) = polls log := by simp [polls,Round.polls]
    refine ⟨?_,?_,?_⟩
    · rw [quiet,← whole,queued]
      simp [sent,Round.sent]
    · rw [quiet]
      exact stopped
    · rw [quiet]
      exact going
  case h_2 idle =>
    split at done
    case h_1 => cases done
    case h_2 now machine =>
      obtain ⟨isOpen,later⟩ := going now machine
      have goes_on : (enqueue .empty (calls m include_raw chunks (polls log) 0 state).flatten).2.2 = false := by
        by_contra ended
        rw [stopped (by simpa using ended)] at machine
        cases machine
      rw [idle,append_nil] at whole
      split at done
      case h_1 chunk taken =>
        split at done
        case h_1 => cases done
        case h_2 after parts handled =>
          cases done
          have polled : polls (log ++ [Round.handles chunk]) = polls log + 1 := by simp [polls,Round.polls]
          have made : calls m include_raw chunks (polls log + 1) 0 state =
              calls m include_raw chunks (polls log) 0 state ++ [parts] := by
            rw [later 1]
            simp [calls,taken,handled]
          obtain ⟨queued,rest⟩ := enqueue_call goes_on parts
          refine ⟨?_,?_,?_⟩
          · rw [polled,made,flatten_append,flatten_singleton,queued,← cons_append,← whole]
            simp [sent,Round.sent,Driver.enqueue,idle,isOpen]
          · rw [polled,made,flatten_append,flatten_singleton,rest]
            intro ended
            simp [Driver.enqueue,isOpen,ended]
          · rw [polled,made,flatten_append,flatten_singleton,rest]
            intro current same
            simp only [Driver.enqueue,isOpen] at same ⊢
            split at same
            case isTrue => cases same
            case isFalse =>
              cases same
              refine ⟨trivial,?_⟩
              intro k
              rw [Nat.add_right_comm,Nat.add_assoc,later (k + 1)]
              simp [calls,taken,handled]
      case h_2 taken =>
        cases done
        have polled : polls (log ++ [(Round.finishes : Round χ)]) = polls log + 1 := by simp [polls,Round.polls]
        have made : calls m include_raw chunks (polls log + 1) 0 state =
            calls m include_raw chunks (polls log) 0 state ++ [m.finish now] := by
          rw [later 1]
          simp [calls,taken]
        obtain ⟨queued,_⟩ := enqueue_call goes_on (m.finish now)
        refine ⟨?_,?_,?_⟩
        · rw [polled,made,flatten_append,flatten_singleton,queued,← cons_append,← whole]
          simp [sent,Round.sent,Driver.enqueue,idle,isOpen]
        · intro _
          simp [Driver.enqueue]
        · intro current same
          simp [Driver.enqueue] at same

theorem Drives.rounds (n : Nat) : ∀ {log : List (Round χ)} {d : Driver σ},
    Drives m include_raw chunks start state log d →
      Drives m include_raw chunks start state (log ++ (d.rounds m include_raw chunks n).1)
        (d.rounds m include_raw chunks n).2 := by
  induction n with
  | zero =>
    intro log d drives
    simpa [Driver.rounds] using drives
  | succ n ih =>
    intro log d drives
    cases done : d.round m include_raw chunks with
    | none => simpa [Driver.rounds,done] using drives
    | some turn =>
      obtain ⟨round,_⟩ := turn
      simpa [Driver.rounds,done] using ih (drives.round done)

theorem rounds_add (n k : Nat) : ∀ d : Driver σ, d.rounds m include_raw chunks (n + k) =
    ((d.rounds m include_raw chunks n).1 ++ ((d.rounds m include_raw chunks n).2.rounds m include_raw chunks k).1,
      ((d.rounds m include_raw chunks n).2.rounds m include_raw chunks k).2) := by
  induction n with
  | zero => intro d; simp [Driver.rounds]
  | succ n ih =>
    intro d
    cases done : d.round m include_raw chunks with
    | none =>
      have spent : ∀ k, d.rounds m include_raw chunks k = ([],d) := by
        intro k
        cases k <;> simp [Driver.rounds,done]
      simp [spent]
    | some turn =>
      obtain ⟨_,_⟩ := turn
      rw [Nat.add_right_comm]
      simp [Driver.rounds,done,ih]

theorem rounds_stopped (n : Nat) : ∀ {d : Driver σ}, d.machine = none → polls (d.rounds m include_raw chunks n).1 = 0 := by
  induction n with
  | zero => intro d _; rfl
  | succ n ih =>
    intro d stopped
    cases queue : d.pending with
    | nil => simp [Driver.rounds,Driver.round,queue,stopped,polls]
    | cons _ rest =>
      have later := @ih { d with pending := rest } stopped
      simp only [Driver.rounds,Driver.round,queue]
      simpa [polls,Round.polls] using later

/-- The stream ends after so many rounds, having sent `parts`. -/
def Driver.Delivers (m : StreamMachine σ χ) (include_raw : Bool) (chunks : Nat → Option (ParseResult χ)) (d : Driver σ)
    (parts : List StreamPart) : Prop :=
  ∃ n, (d.rounds m include_raw chunks n).2.round m include_raw chunks = none ∧
    sent (d.rounds m include_raw chunks n).1 = parts

theorem Driver.Delivers.later {next : Driver σ} {round : Round χ} {parts : List StreamPart}
    (delivers : next.Delivers m include_raw chunks parts) (done : d.round m include_raw chunks = some (round,next)) :
    d.Delivers m include_raw chunks (round.sent.toList ++ parts) := by
  obtain ⟨n,stops,all⟩ := delivers
  refine ⟨n + 1,?_,?_⟩
  · simpa [Driver.rounds,done] using stops
  · simp only [Driver.rounds,done,← all]
    cases round <;> rfl

theorem Driver.Delivers.queued {parts : List StreamPart} (queue : List StreamPart) : ∀ {d : Driver σ}, d.pending = queue →
    ({ d with pending := [] } : Driver σ).Delivers m include_raw chunks parts →
      d.Delivers m include_raw chunks (queue ++ parts) := by
  induction queue with
  | nil =>
    rintro ⟨_,_,pending,_⟩ rfl delivers
    exact delivers
  | cons part rest ih =>
    intro d queued delivers
    have first : d.round m include_raw chunks = some (.yields part,{ d with pending := rest }) := by
      simp [Driver.round,queued]
    exact (@ih { d with pending := rest } rfl delivers).later first

theorem Driver.Delivers.stopped (stopped : d.machine = none) : d.Delivers m include_raw chunks d.pending := by
  have spent : ({ d with pending := [] } : Driver σ).Delivers m include_raw chunks [] :=
    ⟨0,by simp [Driver.rounds,Driver.round,stopped],rfl⟩
  simpa using Driver.Delivers.queued d.pending rfl spent

/-- Chunks that end are driven to the end of the stream, with the parts of `drive`. -/
theorem rounds_drive (cs : List (ParseResult χ)) : ∀ {d : Driver σ} {now : σ}, d.machine = some now →
    (∀ i ≤ cs.length, chunks (d.taken + i) = cs[i]?) →
      d.Delivers m include_raw chunks (d.pending ++ drive m include_raw d.openParts now cs) := by
  induction cs with
  | nil =>
    intro d now machine source
    have spent : chunks d.taken = none := by simpa using source 0 le_rfl
    refine Driver.Delivers.queued d.pending rfl ?_
    have next : ({ d with pending := [] } : Driver σ).round m include_raw chunks =
        some (.finishes,Driver.enqueue { d with pending := [],machine := none } (m.finish now)) := by
      simp [Driver.round,machine,spent]
    exact (Driver.Delivers.stopped (by simp [Driver.enqueue])).later next
  | cons chunk rest ih =>
    intro d now machine source
    have taken : chunks d.taken = some chunk := by simpa using source 0 (Nat.zero_le _)
    refine Driver.Delivers.queued d.pending rfl ?_
    rw [drive]
    obtain panics | ⟨⟨later,parts⟩,handled⟩ := Option.eq_none_or_eq_some (m.handle now chunk include_raw)
    · rw [panics]
      exact ⟨0,by simp [Driver.rounds,Driver.round,machine,taken,panics],rfl⟩
    simp only [handled]
    have next : ({ d with pending := [] } : Driver σ).round m include_raw chunks = some (.handles chunk,
        Driver.enqueue { d with pending := [],taken := d.taken + 1,machine := some later } parts) := by
      simp [Driver.round,machine,taken,handled]
    split
    case isTrue ended =>
      exact (Driver.Delivers.stopped (by simp [Driver.enqueue,ended])).later next
    case isFalse goes_on =>
      have shifted : ∀ i ≤ rest.length, chunks (d.taken + 1 + i) = rest[i]? := by
        intro i within
        have there := source (i + 1) (Nat.succ_le_succ within)
        rw [Nat.add_right_comm,Nat.add_assoc]
        simpa using there
      have running := @ih (Driver.enqueue { d with pending := [],taken := d.taken + 1,machine := some later } parts) later
        (by simp [Driver.enqueue,goes_on]) shifted
      exact running.later next

theorem round_none (stops : d.round m include_raw chunks = none) : d.pending = [] := by
  unfold Driver.round at stops
  split at stops
  case h_1 => cases stops
  case h_2 idle => exact idle

end

section
variable {s t : Finset PartKey}

def PartKey.close : PartKey → StreamPart
  | .text id => .TextEnd id none
  | .reasoning id => .ReasoningEnd id none
  | .toolInput id => .ToolInputEnd id none

theorem close_eq (o : OpenParts) : o.close = o.keys.map PartKey.close := by
  simp [OpenParts.close,OpenParts.keys,PartKey.close,Function.comp_def]

theorem enqueue_clean {parts : List StreamPart} (clean : ∀ part ∈ parts, ∀ error, part ≠ .Error error) :
    ∀ o : OpenParts, (enqueue o parts).1 = parts ∧ (enqueue o parts).2.2 = false := by
  induction parts with
  | nil => intro o; exact ⟨rfl,rfl⟩
  | cons part _ ih =>
    intro o
    obtain ⟨same,goes_on⟩ := ih (fun p mem => clean p (mem_cons_of_mem _ mem)) (o.observe part)
    have ordinary := clean part mem_cons_self
    cases part
    case Error error => exact absurd rfl (ordinary error)
    all_goals exact ⟨congrArg _ same,goes_on⟩

theorem enqueue_error {before : List StreamPart} (error : StreamError) (after : List StreamPart)
    (clean : ∀ part ∈ before, ∀ error, part ≠ .Error error) : ∀ {s : Finset PartKey} {o : OpenParts},
    run s (marks before) = some t → Holds o s →
      ∃ o', Holds o' t ∧ enqueue o (before ++ .Error error :: after) = (before ++ (o'.close ++ [.Error error]),.empty,true) := by
  induction before with
  | nil =>
    intro s o bracketed holds
    have same : s = t := by simpa [marks] using bracketed
    exact ⟨o,same ▸ holds,rfl⟩
  | cons part _ ih =>
    intro s o bracketed holds
    rw [run_marks_cons,Option.bind_eq_some_iff] at bracketed
    obtain ⟨u,marked,later⟩ := bracketed
    obtain ⟨o',held,queued⟩ := ih (fun p mem => clean p (mem_cons_of_mem _ mem)) later (holds.observe marked)
    refine ⟨o',held,?_⟩
    have ordinary := clean part mem_cons_self
    cases part
    case Error error => exact absurd rfl (ordinary error)
    all_goals simp only [cons_append,enqueue,queued]

theorem live_error {before after : List StreamPart} {error : StreamError}
    (clean : ∀ part ∈ before, ∀ error, part ≠ .Error error) : live (before ++ .Error error :: after) = before := by
  have alive : live (before ++ .Error error :: after) = before ++ live (.Error error :: after) := by
    refine takeWhile_append_of_pos fun part mem => ?_
    have ordinary := clean part mem
    cases part <;> first | rfl | exact absurd rfl (ordinary _)
  rw [alive]
  exact append_nil before

end

section
variable {σ χ : Type}

/-- Whatever the machine, when its parts up to the first error are well paired: what is sent, and queued, after `n`
    rounds is the start followed by the machine's parts, cut at the first error. What is open there is closed once
    before it, and the machine is never called again. -/
theorem drive_stream_closes (m : StreamMachine σ χ) (include_raw : Bool) (chunks : Nat → Option (ParseResult χ))
    (start : StreamPart) (state : σ)
    (paired : ∀ n, (run ∅ (marks (live (calls m include_raw chunks n 0 state).flatten))).isSome) (n : Nat) :
    let (log,d) := (Driver.new start state).rounds m include_raw chunks n
    let made := (calls m include_raw chunks (polls log) 0 state).flatten
    (∃ out, sent log ++ d.pending = start :: out ∧
      ((∀ part ∈ made, ∀ error, part ≠ .Error error) → out = made) ∧
      ∀ before error after, made = before ++ .Error error :: after →
        (∀ part ∈ before, ∀ error, part ≠ .Error error) →
          (∃ keys : List PartKey, keys.Nodup ∧ run ∅ (marks before) = some keys.toFinset ∧
            out = before ++ (keys.map PartKey.close ++ [.Error error])) ∧
          ∀ more, polls ((Driver.new start state).rounds m include_raw chunks (n + more)).1 = polls log) ∧
    (d.round m include_raw chunks = none → d.pending = []) ∧
    ∀ cs : List (ParseResult χ), (∀ i ≤ cs.length, chunks i = cs[i]?) →
      (Driver.new start state).Delivers m include_raw chunks (drive_stream start cs m state include_raw) := by
  have new : Drives m include_raw chunks start state [] (.new start state) := drives_new
  have drives := new.rounds n
  rw [nil_append] at drives
  obtain ⟨whole,stopped,-⟩ := drives
  refine ⟨⟨_,whole,?_,?_⟩,round_none,?_⟩
  · intro clean
    exact (enqueue_clean clean .empty).1
  · intro before error after made clean
    obtain ⟨t,bracketed⟩ := Option.isSome_iff_exists.mp
      (paired (polls ((Driver.new start state).rounds m include_raw chunks n).1))
    rw [made,live_error clean] at bracketed
    obtain ⟨o,holds,queued⟩ := enqueue_error error after clean bracketed holds_empty
    refine ⟨⟨o.keys,holds.keys.1,?_,?_⟩,?_⟩
    · rw [holds.keys.2,bracketed]
    · rw [made,queued,close_eq]
    · intro more
      have gone := stopped (by rw [made,queued])
      rw [rounds_add]
      simp [rounds_stopped more gone]
  · intro cs source
    have machine : (Driver.new start state).machine = some state := rfl
    refine rounds_drive cs machine ?_
    intro i within
    rw [← source i within,Driver.new,Nat.zero_add]

end

def failing : StreamMachine Unit Unit where
  handle _ _ _ := some ((),[.TextStart "0" none,.text_delta "0" "rain",.Error (.new "cut")])
  finish _ := []

/-- Its text is closed before the error, and the chunks after the first one are never taken. -/
theorem drive_stream_closes_failing :
    sent ((Driver.new (.StreamStart []) ()).rounds failing false (fun _ => some (.Err (.invalid_response_data "") none)) 6).1 =
        [.StreamStart [],.TextStart "0" none,.text_delta "0" "rain",.TextEnd "0" none,.Error (.new "cut")] ∧
      ∀ more, polls ((Driver.new (.StreamStart []) ()).rounds failing false
        (fun _ => some (.Err (.invalid_response_data "") none)) (6 + more)).1 = 1 := by
  refine ⟨by decide,?_⟩
  have stops := (drive_stream_closes failing false (fun _ => some (.Err (.invalid_response_data "") none))
    (.StreamStart []) () ?_ 6).1
  · obtain ⟨out,-,-,cut⟩ := stops
    exact (cut [.TextStart "0" none,.text_delta "0" "rain"] (.new "cut") [] (by rfl)
      (by simp [StreamPart.text_delta])).2
  · intro n
    cases n with
    | zero => rfl
    | succ n => rfl

end Ferrin.Stream
