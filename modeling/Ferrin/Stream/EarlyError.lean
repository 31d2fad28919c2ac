import Ferrin.Stream.Driver

/-!
The early-error check. It looks at the first chunks of a stream and fails the
request at an error; everything it has read is replayed in front of the rest.
-/
namespace Ferrin.Stream
open List Nat

inductive EarlyChunk where
  | Error
  | Output
  | Accepted
  | Other
  deriving DecidableEq

/-! ### Streams that are polled -/

/-- `StreamExt::fuse`: how many items were asked for, and whether the stream has ended. -/
structure Fuse where
  taken : Nat
  done : Bool

/-- `stream::iter(buffered).chain(stream)`. -/
structure Replay (α : Type) where
  buffered : List α
  rest : Fuse

section
variable {α : Type} (source : Nat → Option α)

/-- A fused stream never asks its source again after the end. -/
def Fuse.next (f : Fuse) : Option α × Fuse :=
  if f.done then (none,f)
  else
    match source f.taken with
    | some item => (some item,{ f with taken := f.taken + 1 })
    | none => (none,⟨f.taken + 1,true⟩)

def Replay.next (r : Replay α) : Option α × Replay α :=
  match r.buffered with
  | item :: buffered => (some item,{ r with buffered })
  | [] =>
    let (item,rest) := r.rest.next source
    (item,{ r with rest })

/-- The answer to the poll after `n` others. -/
def Replay.nth : Nat → Replay α → Option α
  | 0, r => (r.next source).1
  | n + 1, r => Replay.nth n (r.next source).2

end

section
variable {χ : Type} (source : Nat → Option (ParseResult χ)) (late : Nat → Bool) (classify : χ → EarlyChunk)
  (to_error : χ → JsonValue → ProviderError)

/-- The loop of `fail_on_early_error`, at most `fuel` times round. `late i` tells whether the grace period is over
    before the stream gives its item `i`. -/
def look : (fuel : Nat) → (accepted : Bool) → List (ParseResult χ) → Fuse →
    Option (Except ProviderError (Replay (ParseResult χ)))
  | 0, _, _, _ => none
  | fuel + 1, accepted, buffered, f =>
    if accepted && late f.taken then some (.ok ⟨buffered,f⟩)
    else
      match f.next source with
      | (none,f) => some (.ok ⟨buffered,f⟩)
      | (some (.Err error raw),f) => some (.ok ⟨buffered ++ [.Err error raw],f⟩)
      | (some (.Ok value raw),f) =>
        match classify value with
        | .Error => some (.error (to_error value raw))
        | .Output => some (.ok ⟨buffered ++ [.Ok value raw],f⟩)
        | .Accepted => look fuel true (buffered ++ [.Ok value raw]) f
        | .Other => look fuel accepted (buffered ++ [.Ok value raw]) f

/-- `fail_on_early_error`: it returns when some number of rounds is enough. -/
def fail_on_early_error (result : Except ProviderError (Replay (ParseResult χ))) : Prop :=
  ∃ fuel, look source late classify to_error fuel false [] ⟨0,false⟩ = some result

/-- The class of the chunk at `i`, if it was parsed. -/
def classAt (i : Nat) : Option EarlyChunk :=
  match source i with
  | some (.Ok value _) => some (classify value)
  | _ => none

/-- The server has acknowledged the request before item `i`. -/
def acceptedBefore (i : Nat) : Bool := (List.range i).any fun j => classAt source classify j = some .Accepted

/-- The grace period is over before item `i`. -/
def Expired (i : Nat) : Prop := acceptedBefore source classify i = true ∧ late i = true

/-- The chunk at `i` lets the check go on. -/
def Quiet (i : Nat) : Prop := classAt source classify i = some .Accepted ∨ classAt source classify i = some .Other

end

section
variable {χ : Type} {source : Nat → Option (ParseResult χ)} {late : Nat → Bool} {classify : χ → EarlyChunk}
  {to_error : χ → JsonValue → ProviderError} {i : Nat}

/-- The chunks that were read before item `i`. -/
def readBefore (source : Nat → Option (ParseResult χ)) (i : Nat) : List (ParseResult χ) := (List.range i).filterMap source

/-- What the check returns when it stops at item `i`. -/
inductive Stops (source : Nat → Option (ParseResult χ)) (late : Nat → Bool) (classify : χ → EarlyChunk)
    (to_error : χ → JsonValue → ProviderError) (i : Nat) : Except ProviderError (Replay (ParseResult χ)) → Prop where
  | expired (spent : Expired source late classify i) :
      Stops source late classify to_error i (.ok ⟨readBefore source i,⟨i,false⟩⟩)
  | ended (waits : ¬ Expired source late classify i) (absent : source i = none) :
      Stops source late classify to_error i (.ok ⟨readBefore source i,⟨i + 1,true⟩⟩)
  | unparsed (waits : ¬ Expired source late classify i) {error : ProviderError} {raw : Option String}
      (there : source i = some (.Err error raw)) :
      Stops source late classify to_error i (.ok ⟨readBefore source i ++ [.Err error raw],⟨i + 1,false⟩⟩)
  | output (waits : ¬ Expired source late classify i) {value : χ} {raw : JsonValue}
      (there : source i = some (.Ok value raw)) (kind : classify value = .Output) :
      Stops source late classify to_error i (.ok ⟨readBefore source i ++ [.Ok value raw],⟨i + 1,false⟩⟩)
  | failed (waits : ¬ Expired source late classify i) {value : χ} {raw : JsonValue}
      (there : source i = some (.Ok value raw)) (kind : classify value = .Error) :
      Stops source late classify to_error i (.error (to_error value raw))

/-- The check goes past item `i`. -/
def Passes (source : Nat → Option (ParseResult χ)) (late : Nat → Bool) (classify : χ → EarlyChunk) (i : Nat) : Prop :=
  Quiet source classify i ∧ ¬ Expired source late classify i

theorem passes_or_stops (i : Nat) : Passes source late classify i ∨ ∃ result, Stops source late classify to_error i result := by
  by_cases spent : Expired source late classify i
  · exact .inr ⟨_,.expired spent⟩
  cases there : source i with
  | none => exact .inr ⟨_,.ended spent there⟩
  | some chunk =>
    cases chunk with
    | Err => exact .inr ⟨_,.unparsed spent there⟩
    | Ok value =>
      cases kind : classify value with
      | Error => exact .inr ⟨_,.failed spent there kind⟩
      | Output => exact .inr ⟨_,.output spent there kind⟩
      | Accepted => exact .inl ⟨.inl (by simp [classAt,there,kind]),spent⟩
      | Other => exact .inl ⟨.inr (by simp [classAt,there,kind]),spent⟩

theorem Stops.not_passes {result : Except ProviderError (Replay (ParseResult χ))}
    (stops : Stops source late classify to_error i result) : ¬ Passes source late classify i := by
  rintro ⟨quiet,waits⟩
  cases stops with
  | expired spent => exact waits spent
  | ended _ absent => simp [Quiet,classAt,absent] at quiet
  | unparsed _ there => simp [Quiet,classAt,there] at quiet
  | output _ there kind | failed _ there kind => simp [Quiet,classAt,there,kind] at quiet

theorem acceptedBefore_succ (i : Nat) : acceptedBefore source classify (i + 1) =
    (acceptedBefore source classify i || decide (classAt source classify i = some .Accepted)) := by
  simp [acceptedBefore,range_succ]

theorem readBefore_succ (i : Nat) : readBefore source (i + 1) = readBefore source i ++ (source i).toList := by
  rw [readBefore,range_succ,filterMap_append,readBefore]
  cases there : source i <;> simp [there]

theorem waits_iff : ¬ Expired source late classify i ↔ (acceptedBefore source classify i && late i) = false := by
  simp [Expired]

theorem look_pass (passes : Passes source late classify i) (fuel : Nat) :
    look source late classify to_error (fuel + 1) (acceptedBefore source classify i) (readBefore source i) ⟨i,false⟩ =
      look source late classify to_error fuel (acceptedBefore source classify (i + 1)) (readBefore source (i + 1))
        ⟨i + 1,false⟩ := by
  obtain ⟨quiet,waits⟩ := passes
  rw [waits_iff] at waits
  rw [acceptedBefore_succ,readBefore_succ]
  cases there : source i with
  | none => simp [Quiet,classAt,there] at quiet
  | some chunk =>
    cases chunk with
    | Err => simp [Quiet,classAt,there] at quiet
    | Ok =>
      simp only [Quiet,classAt,there,Option.some.injEq] at quiet
      rcases quiet with kind | kind <;> simp [look,waits,Fuse.next,there,kind,classAt]

theorem look_stop {result : Except ProviderError (Replay (ParseResult χ))}
    (stops : Stops source late classify to_error i result) (fuel : Nat) :
    look source late classify to_error (fuel + 1) (acceptedBefore source classify i) (readBefore source i) ⟨i,false⟩ =
      some result := by
  cases stops with
  | expired spent => simp [look,spent.1,spent.2]
  | ended waits absent =>
    rw [waits_iff] at waits
    simp [look,waits,Fuse.next,absent]
  | unparsed waits there =>
    rw [waits_iff] at waits
    simp [look,waits,Fuse.next,there]
  | output waits there kind | failed waits there kind =>
    rw [waits_iff] at waits
    simp [look,waits,Fuse.next,there,kind]

/-- The rounds before item `i`, when the check passes every chunk there. -/
theorem look_passes (i : Nat) : (∀ j < i, Passes source late classify j) → ∀ fuel,
    look source late classify to_error (i + fuel) false [] ⟨0,false⟩ =
      look source late classify to_error fuel (acceptedBefore source classify i) (readBefore source i) ⟨i,false⟩ := by
  induction i with
  | zero =>
    intro _ fuel
    simp [acceptedBefore,readBefore]
  | succ i ih =>
    intro passes fuel
    rw [Nat.add_right_comm,Nat.add_assoc,ih (fun j before => passes j (lt_succ_of_lt before)) (fuel + 1),
      look_pass (passes i (lt_succ_self i))]

theorem passes_or_first (source : Nat → Option (ParseResult χ)) (late : Nat → Bool) (classify : χ → EarlyChunk)
    (to_error : χ → JsonValue → ProviderError) (n : Nat) : (∀ j < n, Passes source late classify j) ∨
    ∃ i < n, (∀ j < i, Passes source late classify j) ∧ ∃ result, Stops source late classify to_error i result := by
  induction n with
  | zero => exact .inl fun j before => absurd before (Nat.not_lt_zero j)
  | succ n ih =>
    rcases ih with all | ⟨i,within,first⟩
    · rcases passes_or_stops n with passes | stops
      · refine .inl fun j before => ?_
        rcases Nat.lt_succ_iff_lt_or_eq.mp before with earlier | rfl
        · exact all j earlier
        · exact passes
      · exact .inr ⟨n,lt_succ_self n,all,stops⟩
    · exact .inr ⟨i,lt_succ_of_lt within,first⟩

theorem returns_iff {result : Except ProviderError (Replay (ParseResult χ))} :
    fail_on_early_error source late classify to_error result ↔
      ∃ i, (∀ j < i, Passes source late classify j) ∧ Stops source late classify to_error i result := by
  constructor
  · rintro ⟨fuel,returned⟩
    rcases passes_or_first source late classify to_error fuel with all | ⟨i,within,before,_,stops⟩
    · rw [← Nat.add_zero fuel,look_passes fuel all 0] at returned
      cases returned
    · obtain ⟨k,rfl⟩ := Nat.exists_eq_add_of_lt within
      rw [Nat.add_assoc,look_passes i before,look_stop stops] at returned
      cases returned
      exact ⟨i,before,stops⟩
  · rintro ⟨i,before,stops⟩
    refine ⟨i + (0 + 1),?_⟩
    rw [look_passes i before,look_stop stops]

theorem nth_rest (k : Nat) : ∀ {f : Fuse}, f.done = false → (∀ j < k, source (f.taken + j) ≠ none) →
    Replay.nth source k ⟨[],f⟩ = source (f.taken + k) := by
  induction k with
  | zero =>
    intro f live _
    cases there : source f.taken <;> simp [Replay.nth,Replay.next,Fuse.next,live,there]
  | succ k ih =>
    intro f live present
    obtain ⟨_,there⟩ := Option.ne_none_iff_exists'.mp (present 0 (succ_pos k))
    have later := @ih { f with taken := f.taken + 1 } live (by
      intro j before
      rw [Nat.add_assoc,Nat.add_comm 1 j]
      exact present (j + 1) (succ_lt_succ before))
    rw [Nat.add_zero] at there
    rw [← Nat.add_assoc,Nat.add_right_comm,← later]
    simp [Replay.nth,Replay.next,Fuse.next,live,there]

theorem nth_buffered (buffered : List (ParseResult χ)) (f : Fuse) : ∀ n, Replay.nth source n ⟨buffered,f⟩ =
    if n < buffered.length then buffered[n]? else Replay.nth source (n - buffered.length) ⟨[],f⟩ := by
  induction buffered with
  | nil => intro n; simp
  | cons _ _ ih =>
    intro n
    cases n with
    | zero => simp [Replay.nth,Replay.next]
    | succ n =>
      rw [Replay.nth,Replay.next,ih n]
      simp

theorem readBefore_get (n i : Nat) (present : ∀ j < i, source j ≠ none) :
    (readBefore source i).length = i ∧ (n < i → (readBefore source i)[n]? = source n) := by
  induction i with
  | zero => simp [readBefore]
  | succ i ih =>
    obtain ⟨length,items⟩ := ih fun j before => present j (lt_succ_of_lt before)
    obtain ⟨_,there⟩ := Option.ne_none_iff_exists'.mp (present i (lt_succ_self i))
    rw [readBefore_succ,there]
    refine ⟨by simp [length],fun before => ?_⟩
    rcases Nat.lt_succ_iff_lt_or_eq.mp before with earlier | rfl
    · rw [getElem?_append_left (by omega),items earlier]
    · rw [getElem?_append_right (by omega)]
      simp [length,there]

theorem Passes.present (passes : Passes source late classify i) : source i ≠ none := by
  intro absent
  simp [Passes,Quiet,classAt,absent] at passes

theorem Stops.replays {replay : Replay (ParseResult χ)} (stops : Stops source late classify to_error i (.ok replay))
    (before : ∀ j < i, Passes source late classify j) (n : Nat) (reached : ∀ j < n, source j ≠ none) :
    Replay.nth source n replay = source n := by
  obtain ⟨length,items⟩ := readBefore_get n i fun j earlier => (before j earlier).present
  have rest : ∀ {k : Nat}, k ≤ n → Replay.nth source (n - k) ⟨[],⟨k,false⟩⟩ = source n := by
    intro k within
    rw [nth_rest (n - k) rfl]
    · exact congrArg source (by simp only; omega)
    · intro j inside
      exact reached _ (by simp only; omega)
  cases stops with
  | expired =>
    rw [nth_buffered,length]
    split
    case isTrue inside => exact items inside
    case isFalse outside => exact rest (by omega)
  | ended _ absent =>
    have last : n ≤ i := by
      by_contra beyond
      exact reached i (by omega) absent
    rw [nth_buffered,length]
    split
    case isTrue inside => exact items inside
    case isFalse outside =>
      obtain rfl : n = i := by omega
      simp [Replay.nth,Replay.next,Fuse.next,absent]
  | unparsed waits there | output waits there kind =>
    rw [nth_buffered,length_append,length,length_singleton]
    split
    case isTrue inside =>
      rcases Nat.lt_succ_iff_lt_or_eq.mp inside with earlier | rfl
      · rw [getElem?_append_left (by omega),items earlier]
      · rw [getElem?_append_right (by omega)]
        simp [length,there]
    case isFalse outside => exact rest (by omega)

/-- The check fails exactly when an error chunk comes before the first output, the first parse failure and the end
    of the grace period; the error is that of the first error chunk. Otherwise the stream that it returns gives
    every chunk of the original one in its place. It returns as soon as one of these, or the end, is there, and
    what it returns is determined. -/
theorem fail_on_early_error_lossless (source : Nat → Option (ParseResult χ)) (late : Nat → Bool)
    (classify : χ → EarlyChunk) (to_error : χ → JsonValue → ProviderError) :
    ((∃ error, fail_on_early_error source late classify to_error (.error error)) ↔
      ∃ i, classAt source classify i = some .Error ∧
        (∀ j < i, ∃ kind, classAt source classify j = some kind ∧ kind ≠ .Output) ∧
        ∀ j ≤ i, ¬ Expired source late classify j) ∧
    (∀ error, fail_on_early_error source late classify to_error (.error error) → ∃ i value raw,
      source i = some (.Ok value raw) ∧ classify value = .Error ∧ error = to_error value raw ∧
        ∀ j < i, Quiet source classify j) ∧
    (∀ replay, fail_on_early_error source late classify to_error (.ok replay) →
      ∀ n, (∀ j < n, source j ≠ none) → Replay.nth source n replay = source n) ∧
    ((∃ result, fail_on_early_error source late classify to_error result) ↔
      ∃ i, ¬ Quiet source classify i ∨ Expired source late classify i) ∧
    ∀ result other, fail_on_early_error source late classify to_error result →
      fail_on_early_error source late classify to_error other → result = other := by
  refine ⟨⟨?_,?_⟩,?_,?_,⟨?_,?_⟩,?_⟩
  · rintro ⟨error,returned⟩
    obtain ⟨i,before,stops⟩ := returns_iff.mp returned
    cases stops with
    | failed waits there kind =>
      refine ⟨i,by simp [classAt,there,kind],?_,?_⟩
      · intro j earlier
        rcases (before j earlier).1 with quiet | quiet
        · exact ⟨.Accepted,quiet,by decide⟩
        · exact ⟨.Other,quiet,by decide⟩
      · intro j within
        rcases Nat.lt_or_eq_of_le within with earlier | rfl
        · exact (before j earlier).2
        · exact waits
  · rintro ⟨i,fails,before,waits⟩
    rcases passes_or_first source late classify to_error (i + 1) with all | ⟨k,within,passed,result,stops⟩
    · have quiet := (all i (lt_succ_self i)).1
      simp [Quiet,fails] at quiet
    · have parsed : ∃ kind, classAt source classify k = some kind ∧ kind ≠ .Output := by
        rcases Nat.lt_succ_iff_lt_or_eq.mp within with earlier | rfl
        · exact before k earlier
        · exact ⟨.Error,fails,by decide⟩
      obtain ⟨kind,parsed,other⟩ := parsed
      cases stops with
      | failed still there kind => exact ⟨_,returns_iff.mpr ⟨k,passed,.failed still there kind⟩⟩
      | expired spent => exact absurd spent (waits k (by omega))
      | ended _ absent => simp [classAt,absent] at parsed
      | unparsed _ there => simp [classAt,there] at parsed
      | output _ there kind =>
        simp only [classAt,there,kind,Option.some.injEq] at parsed
        exact absurd parsed.symm other
  · intro error returned
    obtain ⟨i,before,stops⟩ := returns_iff.mp returned
    cases stops with
    | failed waits there kind => exact ⟨i,_,_,there,kind,rfl,fun j earlier => (before j earlier).1⟩
  · intro replay returned
    obtain ⟨i,before,stops⟩ := returns_iff.mp returned
    exact fun n reached => stops.replays before n reached
  · rintro ⟨result,returned⟩
    obtain ⟨i,before,stops⟩ := returns_iff.mp returned
    by_cases spent : Expired source late classify i
    · exact ⟨i,.inr spent⟩
    · exact ⟨i,.inl fun quiet => stops.not_passes ⟨quiet,spent⟩⟩
  · rintro ⟨i,stop⟩
    rcases passes_or_first source late classify to_error (i + 1) with all | ⟨k,-,passed,result,stops⟩
    · obtain ⟨quiet,waits⟩ := all i (lt_succ_self i)
      rcases stop with loud | spent
      · exact absurd quiet loud
      · exact absurd spent waits
    · exact ⟨result,returns_iff.mpr ⟨k,passed,stops⟩⟩
  · intro result other first second
    obtain ⟨i,before,stops⟩ := returns_iff.mp first
    obtain ⟨k,passed,stops'⟩ := returns_iff.mp second
    obtain rfl : i = k := by
      rcases Nat.lt_trichotomy i k with less | same | more
      · exact absurd (passed i less) stops.not_passes
      · exact same
      · exact absurd (before k more) stops'.not_passes
    have one := look_stop stops 0
    rw [look_stop stops' 0] at one
    exact (Option.some.inj one).symm

end

end Ferrin.Stream
