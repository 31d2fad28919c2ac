import Ferrin.Retry

/-!
The retry loop with its cancellation. The attempts, the cancellation and the
waiting between two attempts come from outside, by the number of the attempt.
-/
namespace Ferrin.RetryLoop
open List
open List (range)

def u32.MAX : Nat := 4294967295

/-- A double, as far as the loop looks at it. -/
inductive F64 where
  | NaN
  | Infinite (negative : Bool)
  | Finite (value : Rat)
  deriving DecidableEq

def F64.is_finite : F64 → Bool
  | .Finite _ => true
  | _ => false

def F64.is_negative : F64 → Bool
  | .NaN => false
  | .Infinite negative => negative
  | .Finite value => value < 0

structure RetryPolicy where
  max_retries : Nat
  max_retries_le : max_retries ≤ u32.MAX
  backoff_factor : F64

def RetryPolicy.is_valid (policy : RetryPolicy) : Bool :=
  policy.backoff_factor.is_finite && !policy.backoff_factor.is_negative

inductive RetryReason where
  | MaxRetriesExceeded
  | ErrorNotRetryable
  | Abort
  deriving DecidableEq

inductive ProviderFailure where
  | Cancelled
  | Reported (error : ProviderError)
  deriving DecidableEq

def ProviderFailure.is_retryable : ProviderFailure → Bool
  | .Cancelled => false
  | .Reported error => error.is_retryable

inductive Error where
  | Cancelled
  | InvalidArgument (argument message : String)
  | Provider (error : ProviderFailure)
  | Retry (reason : RetryReason) (attempts : Nat) (errors : List ProviderFailure)
  | Other (message : String)
  deriving DecidableEq

def Error.from : ProviderFailure → Error
  | .Cancelled => .Cancelled
  | other => .Provider other

/-- What comes from outside: whether the token is cancelled when the loop comes to an attempt, the outcome of the
    attempt, and whether the token is cancelled before the delay after it is over. -/
structure Course (α : Type) where
  cancelled : Nat → Bool
  operation : Nat → Except Error α
  interrupted : Nat → Bool

/-- The numbers the operation was called with, and what is returned. -/
structure Run (α : Type) where
  attempts : List Nat
  result : Except Error α
  deriving DecidableEq

inductive Turn (α : Type) where
  | Return (result : Except Error α)
  | Continue (errors : List ProviderFailure)

section
variable {α : Type}

def abort_error (errors : List ProviderFailure) : Error :=
  if errors = [] then .Cancelled else .Retry .Abort (min errors.length u32.MAX) errors

def attempt_number (errors : List ProviderFailure) : Nat := min errors.length u32.MAX

def after_attempt (policy : RetryPolicy) (is_retryable : ProviderFailure → Bool) (interrupted : Bool)
    (errors : List ProviderFailure) : Except Error α → Turn α
  | .ok value => .Return (.ok value)
  | .error .Cancelled => .Return (.error (abort_error errors))
  | .error (.Provider error) =>
    if policy.max_retries = 0 then .Return (.error (.from error))
    else
      let retry_number := min (attempt_number errors + 1) u32.MAX
      let retryable := decide (retry_number ≤ policy.max_retries) && is_retryable error
      let errors := errors ++ [error]
      let attempts := retry_number
      if attempts > policy.max_retries then .Return (.error (.Retry .MaxRetriesExceeded attempts errors))
      else if !retryable then
        if attempts = 1 then .Return (.error (.from (errors.getLast?.getD .Cancelled)))
        else .Return (.error (.Retry .ErrorNotRetryable attempts errors))
      else if interrupted then .Return (.error (.Retry .Abort attempts errors))
      else .Continue errors
  | .error other => .Return (.error other)

def retry_loop (policy : RetryPolicy) (is_retryable : ProviderFailure → Bool) (course : Course α) :
    (fuel : Nat) → (attempts : List Nat) → (errors : List ProviderFailure) → Option (Run α)
  | 0,_,_ => none
  | fuel + 1,attempts,errors =>
    if course.cancelled errors.length then some ⟨attempts,.error (abort_error errors)⟩
    else
      match after_attempt policy is_retryable (course.interrupted errors.length) errors
          (course.operation errors.length) with
      | .Return result => some ⟨attempts ++ [attempt_number errors],result⟩
      | .Continue errors' => retry_loop policy is_retryable course fuel (attempts ++ [attempt_number errors]) errors'

def retry_with (policy : RetryPolicy) (is_retryable : ProviderFailure → Bool) (course : Course α) (fuel : Nat) :
    Option (Run α) :=
  if !policy.is_valid then
    some ⟨[],.error (.InvalidArgument "retry_policy.backoff_factor" "must be finite and nonnegative")⟩
  else retry_loop policy is_retryable course fuel [] []

def retry (policy : RetryPolicy) (course : Course α) (fuel : Nat) : Option (Run α) :=
  retry_with policy ProviderFailure.is_retryable course fuel

/-- The attempts so far have failed with these errors, and after each of them a retry has come. -/
structure Retried (policy : RetryPolicy) (is_retryable : ProviderFailure → Bool) (course : Course α)
    (errors : List ProviderFailure) : Prop where
  within : errors.length ≤ policy.max_retries
  each : ∀ n error, errors[n]? = some error →
    course.cancelled n = false ∧ course.operation n = .error (.Provider error) ∧ is_retryable error = true ∧
      course.interrupted n = false

/-- How a run ends after these failed attempts: the number of its attempts and what it returns. -/
inductive Ends (policy : RetryPolicy) (is_retryable : ProviderFailure → Bool) (course : Course α)
    (errors : List ProviderFailure) : Nat → Except Error α → Prop where
  | success (value : α) (running : course.cancelled errors.length = false)
      (outcome : course.operation errors.length = .ok value) :
      Ends policy is_retryable course errors (errors.length + 1) (.ok value)
  | disabled (error : ProviderFailure) (running : course.cancelled errors.length = false)
      (outcome : course.operation errors.length = .error (.Provider error)) (none_left : policy.max_retries = 0) :
      Ends policy is_retryable course errors (errors.length + 1) (.error (.from error))
  | at_once (error : ProviderFailure) (running : course.cancelled errors.length = false)
      (outcome : course.operation errors.length = .error (.Provider error)) (first : errors = [])
      (final : is_retryable error = false) :
      Ends policy is_retryable course errors (errors.length + 1) (.error (.from error))
  | exhausted (error : ProviderFailure) (running : course.cancelled errors.length = false)
      (outcome : course.operation errors.length = .error (.Provider error)) (enabled : policy.max_retries ≠ 0)
      (last : errors.length = policy.max_retries) :
      Ends policy is_retryable course errors (errors.length + 1)
        (.error (.Retry .MaxRetriesExceeded (errors.length + 1) (errors ++ [error])))
  | not_retryable (error : ProviderFailure) (running : course.cancelled errors.length = false)
      (outcome : course.operation errors.length = .error (.Provider error)) (later : errors ≠ [])
      (left : errors.length < policy.max_retries) (final : is_retryable error = false) :
      Ends policy is_retryable course errors (errors.length + 1)
        (.error (.Retry .ErrorNotRetryable (errors.length + 1) (errors ++ [error])))
  | interrupted (error : ProviderFailure) (running : course.cancelled errors.length = false)
      (outcome : course.operation errors.length = .error (.Provider error))
      (left : errors.length < policy.max_retries) (again : is_retryable error = true)
      (cancelled : course.interrupted errors.length = true) :
      Ends policy is_retryable course errors (errors.length + 1)
        (.error (.Retry .Abort (errors.length + 1) (errors ++ [error])))
  | cancelled (token : course.cancelled errors.length = true) :
      Ends policy is_retryable course errors errors.length
        (.error (if errors = [] then .Cancelled else .Retry .Abort errors.length errors))
  | cancelled_call (running : course.cancelled errors.length = false)
      (outcome : course.operation errors.length = .error .Cancelled) :
      Ends policy is_retryable course errors (errors.length + 1)
        (.error (if errors = [] then .Cancelled else .Retry .Abort errors.length errors))
  | other (error : Error) (running : course.cancelled errors.length = false)
      (outcome : course.operation errors.length = .error error) (not_cancelled : error ≠ .Cancelled)
      (not_provider : ∀ failure, error ≠ .Provider failure) :
      Ends policy is_retryable course errors (errors.length + 1) (.error error)

/-- The attempt calls for a retry, and the retry comes. -/
def Course.CallsAgain (course : Course α) (is_retryable : ProviderFailure → Bool) (n : Nat) : Prop :=
  course.cancelled n = false ∧
    (∃ error, course.operation n = .error (.Provider error) ∧ is_retryable error = true) ∧
    course.interrupted n = false

variable {policy : RetryPolicy} {is_retryable : ProviderFailure → Bool} {course : Course α}
  {errors : List ProviderFailure}

theorem abort_error_counted (counted : errors.length < u32.MAX) :
    abort_error errors = if errors = [] then .Cancelled else .Retry .Abort errors.length errors := by
  rw [abort_error,Nat.min_eq_left (by omega)]

theorem retried_nil : Retried policy is_retryable course [] := ⟨by simp,by simp⟩

theorem Retried.push {error : ProviderFailure} (retried : Retried policy is_retryable course errors)
    (left : errors.length < policy.max_retries) (running : course.cancelled errors.length = false)
    (outcome : course.operation errors.length = .error (.Provider error)) (again : is_retryable error = true)
    (waited : course.interrupted errors.length = false) :
    Retried policy is_retryable course (errors ++ [error]) := by
  refine ⟨by simp only [length_append,length_singleton]; omega,?_⟩
  intro n error' here
  rcases Nat.lt_trichotomy n errors.length with before | rfl | _
  · rw [getElem?_append_left before] at here
    exact retried.each n error' here
  · rw [getElem?_concat_length] at here
    cases here
    exact ⟨running,outcome,again,waited⟩
  · rw [getElem?_eq_none (by simp only [length_append,length_singleton]; omega)] at here
    cases here

theorem round_spec (retried : Retried policy is_retryable course errors) (counted : errors.length < u32.MAX)
    (running : course.cancelled errors.length = false) :
    (∃ result, after_attempt policy is_retryable (course.interrupted errors.length) errors
        (course.operation errors.length) = .Return result ∧
      Ends policy is_retryable course errors (errors.length + 1) result) ∨
    (∃ error, after_attempt policy is_retryable (course.interrupted errors.length) errors
        (course.operation errors.length) = .Continue (errors ++ [error]) ∧
      Retried policy is_retryable course (errors ++ [error]) ∧ course.CallsAgain is_retryable errors.length ∧
      errors.length < policy.max_retries) := by
  have number : min (attempt_number errors + 1) u32.MAX = errors.length + 1 := by
    rw [attempt_number]
    omega
  have within := retried.within
  cases outcome : course.operation errors.length with
  | ok value => exact .inl ⟨_,rfl,.success value running outcome⟩
  | error error =>
    cases error with
    | Cancelled =>
      refine .inl ⟨_,rfl,?_⟩
      rw [abort_error_counted counted]
      exact .cancelled_call running outcome
    | InvalidArgument =>
      exact .inl ⟨_,rfl,.other _ running outcome (by simp) (by simp)⟩
    | Retry => exact .inl ⟨_,rfl,.other _ running outcome (by simp) (by simp)⟩
    | Other => exact .inl ⟨_,rfl,.other _ running outcome (by simp) (by simp)⟩
    | Provider error =>
      simp only [after_attempt,number]
      by_cases none_left : policy.max_retries = 0
      · rw [if_pos none_left]
        exact .inl ⟨_,rfl,.disabled error running outcome none_left⟩
      rw [if_neg none_left]
      by_cases exceeded : errors.length + 1 > policy.max_retries
      · rw [if_pos exceeded]
        exact .inl ⟨_,rfl,.exhausted error running outcome none_left (by omega)⟩
      rw [if_neg exceeded]
      have left : errors.length < policy.max_retries := by omega
      cases again : is_retryable error with
      | false =>
        rw [if_pos (by simp)]
        by_cases first : errors = []
        · subst first
          exact .inl ⟨_,rfl,.at_once error running outcome rfl again⟩
        · rw [if_neg (by simpa using first)]
          exact .inl ⟨_,rfl,.not_retryable error running outcome first left again⟩
      | true =>
        rw [if_neg (by simp only [Bool.and_true,Bool.not_eq_true']; simp; omega)]
        cases waiting : course.interrupted errors.length with
        | true => exact .inl ⟨_,rfl,.interrupted error running outcome left again waiting⟩
        | false =>
          exact .inr ⟨error,rfl,retried.push left running outcome again waiting,
            ⟨running,⟨error,outcome,again⟩,waiting⟩,left⟩

section
variable (counted : errors.length < u32.MAX)
include counted

theorem retry_loop_cancelled (token : course.cancelled errors.length = true)
    {fuel : Nat} (enough : 0 < fuel) (attempts : List Nat) :
    retry_loop policy is_retryable course fuel attempts errors =
      some ⟨attempts,.error (if errors = [] then .Cancelled else .Retry .Abort errors.length errors)⟩ := by
  obtain ⟨_,rfl⟩ := Nat.exists_eq_add_one_of_ne_zero (Nat.ne_of_gt enough)
  rw [retry_loop,if_pos token,abort_error_counted counted]

theorem range_attempt_number :
    range errors.length ++ [attempt_number errors] = range (errors.length + 1) := by
  rw [range_succ,attempt_number,Nat.min_eq_left (by omega)]

theorem retry_loop_return (running : course.cancelled errors.length = false)
    {fuel : Nat} (enough : 0 < fuel) {result : Except Error α}
    (after : after_attempt policy is_retryable (course.interrupted errors.length) errors
      (course.operation errors.length) = .Return result) :
    retry_loop policy is_retryable course fuel (range errors.length) errors =
      some ⟨range (errors.length + 1),result⟩ := by
  obtain ⟨_,rfl⟩ := Nat.exists_eq_add_one_of_ne_zero (Nat.ne_of_gt enough)
  rw [retry_loop,if_neg (by simp [running]),after]
  simp only [range_attempt_number counted]

theorem retry_loop_continue (running : course.cancelled errors.length = false)
    (fuel : Nat) {error : ProviderFailure}
    (after : after_attempt policy is_retryable (course.interrupted errors.length) errors
      (course.operation errors.length) = .Continue (errors ++ [error])) :
    retry_loop policy is_retryable course (fuel + 1) (range errors.length) errors =
      retry_loop policy is_retryable course fuel (range (errors ++ [error]).length) (errors ++ [error]) := by
  rw [retry_loop,if_neg (by simp [running]),after]
  simp only [range_attempt_number counted,length_append,length_singleton]

end

theorem retry_loop_ends {last : Nat} (counted : last < u32.MAX)
    (stops : last = policy.max_retries ∨ ¬ course.CallsAgain is_retryable last) (room : Nat) :
    ∀ (errors : List ProviderFailure), errors.length + room = last → Retried policy is_retryable course errors →
      ∃ before attempts result, Retried policy is_retryable course before ∧
        Ends policy is_retryable course before attempts result ∧
        ∀ fuel, room < fuel → retry_loop policy is_retryable course fuel (range errors.length) errors =
          some ⟨range attempts,result⟩ := by
  induction room with
  | zero =>
    intro errors here retried
    rw [Nat.add_zero] at here
    cases token : course.cancelled errors.length with
    | true =>
      exact ⟨errors,_,_,retried,.cancelled token,
        fun fuel enough => retry_loop_cancelled (here ▸ counted) token enough _⟩
    | false =>
      rcases round_spec retried (here ▸ counted) token with ⟨result,turn,ends⟩ | ⟨error,_,_,again,left⟩
      · exact ⟨errors,_,_,retried,ends,fun fuel enough => retry_loop_return (here ▸ counted) token enough turn⟩
      · rw [here] at again left
        rcases stops with all | stop
        · omega
        · exact absurd again stop
  | succ _ ih =>
    intro errors here retried
    have counted' : errors.length < u32.MAX := by omega
    cases token : course.cancelled errors.length with
    | true =>
      exact ⟨errors,_,_,retried,.cancelled token,
        fun fuel enough => retry_loop_cancelled counted' token (by omega) _⟩
    | false =>
      rcases round_spec retried counted' token with ⟨result,turn,ends⟩ | ⟨error,turn,next,_,_⟩
      · exact ⟨errors,_,_,retried,ends,fun fuel enough => retry_loop_return counted' token (by omega) turn⟩
      · have longer : (errors ++ [error]).length = errors.length + 1 := by simp
        obtain ⟨before,attempts,result,all,ends,run⟩ := ih (errors ++ [error]) (by omega) next
        refine ⟨before,attempts,result,all,ends,fun fuel enough => ?_⟩
        obtain ⟨less,rfl⟩ := Nat.exists_eq_add_one_of_ne_zero (Nat.ne_of_gt (Nat.zero_lt_of_lt enough))
        exact (retry_loop_continue counted' token less turn).trans (run less (by omega))

theorem Ends.bounded {attempts : Nat} {result : Except Error α} (retried : Retried policy is_retryable course errors)
    (ends : Ends policy is_retryable course errors attempts result) : attempts ≤ policy.max_retries + 1 := by
  have within := retried.within
  cases ends <;> omega

/-- A policy with an invalid factor is refused. Otherwise the loop makes the attempts from 0 on, retries only where a
    retry is called for, and returns as `Ends` says. With `u32::MAX` retries the count of the attempts saturates. -/
theorem retry_with_returns (policy : RetryPolicy) (is_retryable : ProviderFailure → Bool) (course : Course α)
    (counted : policy.max_retries < u32.MAX ∨ ∃ n < u32.MAX, ¬ course.CallsAgain is_retryable n) :
    ∃ run enough, (∀ fuel ≥ enough, retry_with policy is_retryable course fuel = some run) ∧
      run.attempts.length ≤ policy.max_retries + 1 ∧
      if policy.is_valid then
        ∃ errors attempts, run.attempts = range attempts ∧ Retried policy is_retryable course errors ∧
          Ends policy is_retryable course errors attempts run.result
      else
        run = ⟨[],.error (.InvalidArgument "retry_policy.backoff_factor" "must be finite and nonnegative")⟩ := by
  cases valid : policy.is_valid with
  | false => exact ⟨_,0,fun fuel _ => by rw [retry_with,valid]; rfl,by simp,by simp⟩
  | true =>
    obtain ⟨last,small,stops⟩ : ∃ last < u32.MAX,
        last = policy.max_retries ∨ ¬ course.CallsAgain is_retryable last := by
      rcases counted with few | ⟨n,small,stops⟩
      · exact ⟨_,few,.inl rfl⟩
      · exact ⟨n,small,.inr stops⟩
    obtain ⟨before,attempts,result,retried,ends,run⟩ :=
      retry_loop_ends small stops last [] (Nat.zero_add last) retried_nil
    refine ⟨⟨range attempts,result⟩,last + 1,?_,?_,?_⟩
    · intro fuel enough
      rw [retry_with,valid]
      exact run fuel (by omega)
    · rw [length_range]
      exact ends.bounded retried
    · exact ⟨before,attempts,rfl,retried,ends⟩

end

section
variable {ω α : Type}

end

/-- A call that the server turns down for now. -/
def overloaded : ProviderFailure := .Reported ⟨"overloaded",true,some 529,none⟩

theorem retry_with_returns_success :
    retry ⟨2,by decide,.Finite 2⟩ ⟨fun _ => false,fun n => if n = 0 then .error (.Provider overloaded) else .ok "done",
      fun _ => false⟩ 3 = some ⟨[0,1],.ok "done"⟩ ∧
    ∃ run enough, (∀ fuel ≥ enough, retry_with ⟨2,by decide,.Finite 2⟩ ProviderFailure.is_retryable
      (⟨fun _ => false,fun n => if n = 0 then .error (.Provider overloaded) else .ok "done",fun _ => false⟩ :
        Course String) fuel = some run) ∧ run.attempts.length ≤ 3 :=
  have whole := retry_with_returns ⟨2,by decide,.Finite 2⟩ ProviderFailure.is_retryable
    (⟨fun _ => false,fun n => if n = 0 then .error (.Provider overloaded) else .ok "done",fun _ => false⟩ :
      Course String) (.inl (by decide))
  ⟨by decide,by
    obtain ⟨run,enough,same,few,_⟩ := whole
    exact ⟨run,enough,same,few⟩⟩

/-- A cancellation that comes during the first delay gives neither of the two reasons. -/
theorem interrupted_delay :
    ∃ run, retry ⟨2,by decide,.Finite 2⟩
        (⟨fun _ => false,fun _ => .error (.Provider overloaded),fun _ => true⟩ : Course String) 1 = some run ∧
      run.attempts = [0] ∧ run.result = .error (.Retry .Abort 1 [overloaded]) ∧
      ¬ ∃ reason errors, (reason = RetryReason.MaxRetriesExceeded ∨ reason = .ErrorNotRetryable) ∧
        run.result = .error (.Retry reason errors.length errors) := by
  refine ⟨⟨[0],.error (.Retry .Abort 1 [overloaded])⟩,by decide,rfl,rfl,?_⟩
  rintro ⟨reason,errors,stated,same⟩
  rw [Except.error.injEq,Error.Retry.injEq] at same
  rw [← same.1] at stated
  simp at stated

end Ferrin.RetryLoop
