import Ferrin.LanguageModel

/-!
The retry loop around the calls of a provider.
-/
namespace Ferrin

inductive RetryReason where
  | MaxRetriesExceeded
  | ErrorNotRetryable

/-- How the loop ends without a value. -/
inductive CallError where
  | Provider (error : ProviderError)
  | Retry (reason : RetryReason) (errors : List ProviderError)

section
variable {ω α : Type}

/-- The attempts from one on, after the errors so far and with `left` retries. The store is what the provider and
    the layers around it keep. -/
def retry_from (operation : Nat → ω → ω × Except ProviderError α) :
    (left : Nat) → (errors : List ProviderError) → ω → ω × Except CallError α
  | 0,errors,w =>
    match operation errors.length w with
    | (w,.ok value) => (w,.ok value)
    | (w,.error error) =>
      (w,.error (if errors = [] then .Provider error else .Retry .MaxRetriesExceeded (errors ++ [error])))
  | left + 1,errors,w =>
    match operation errors.length w with
    | (w,.ok value) => (w,.ok value)
    | (w,.error error) =>
      if error.is_retryable then retry_from operation left (errors ++ [error]) w
      else (w,.error (if errors = [] then .Provider error else .Retry .ErrorNotRetryable (errors ++ [error])))

def retry (max_retries : Nat) (operation : Nat → ω → ω × Except ProviderError α) (w : ω) : ω × Except CallError α :=
  retry_from operation max_retries [] w

theorem retry_from_ok {operation : Nat → ω → ω × Except ProviderError α} {value : α} {w' : ω} (left : Nat) :
    ∀ (errors : List ProviderError) (w : ω), retry_from operation left errors w = (w',.ok value) →
      ∃ attempt w₀, operation attempt w₀ = (w',.ok value) := by
  induction left with
  | zero =>
    intro errors w done
    rw [retry_from] at done
    cases tried : operation errors.length w with
    | mk _ outcome =>
      rw [tried] at done
      cases outcome with
      | ok =>
        cases done
        exact ⟨_,_,tried⟩
      | error => cases done
  | succ _ ih =>
    intro errors w done
    rw [retry_from] at done
    cases tried : operation errors.length w with
    | mk _ outcome =>
      rw [tried] at done
      cases outcome with
      | ok =>
        cases done
        exact ⟨_,_,tried⟩
      | error =>
        dsimp only at done
        split_ifs at done
        · exact ih _ _ done
        · cases done
        · cases done

theorem retry_ok {operation : Nat → ω → ω × Except ProviderError α} {max_retries : Nat} {value : α} {w w' : ω}
    (done : retry max_retries operation w = (w',.ok value)) :
    ∃ attempt w₀, operation attempt w₀ = (w',.ok value) :=
  retry_from_ok max_retries [] w done

end

end Ferrin
