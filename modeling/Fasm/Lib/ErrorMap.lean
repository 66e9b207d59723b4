import Fasm.Lib.Focus

/-!
# Computations under a map of their errors

`EStateM.adaptExcept` applies a function to the error of a stateful computation and leaves its
values and states as they are.  It commutes with sequencing, and maps compose.  So a
computation whose errors are told apart by more than one wants to know is related to the one
with the plain errors part by part.
-/

namespace Fasm

section ErrorMap

variable {ε ε' ε'' σ α β : Type} {f : ε → ε'}

@[simp] theorem adaptExcept_pure (a : α) :
    (pure a : EStateM ε σ α).adaptExcept f = pure a := rfl

@[simp] theorem adaptExcept_throw (e : ε) :
    (throw e : EStateM ε σ α).adaptExcept f = throw (f e) := rfl

theorem adaptExcept_bind (m : EStateM ε σ α) (k : α → EStateM ε σ β) :
    (m >>= k).adaptExcept f = m.adaptExcept f >>= fun a => (k a).adaptExcept f := by
  funext s
  change EStateM.adaptExcept f (EStateM.bind m k) s =
    EStateM.bind (EStateM.adaptExcept f m) _ s
  simp only [EStateM.adaptExcept, EStateM.bind]
  cases m s with
  | ok a s' => rfl
  | error e s' => rfl

/-- What one map has told apart and a second one forgets again. -/
theorem adaptExcept_cancel {g : ε' → ε} (h : ∀ e, g (f e) = e) (m : EStateM ε σ α) :
    (m.adaptExcept f).adaptExcept g = m := by
  funext s
  unfold EStateM.adaptExcept
  cases m s with
  | ok a s' => rfl
  | error e s' => exact congrArg (EStateM.Result.error · s') (h e)

/-- An error of the mapped computation is the image of one of the computation. -/
theorem adaptExcept_eq_error {m : EStateM ε σ α} {s s' : σ} {e' : ε'}
    (h : m.adaptExcept f s = .error e' s') : ∃ e, m s = .error e s' ∧ f e = e' := by
  unfold EStateM.adaptExcept at h
  cases hm : m s with
  | ok a t =>
    rw [hm] at h
    cases h
  | error e t =>
    rw [hm] at h
    cases h
    exact ⟨e, rfl, rfl⟩

end ErrorMap

end Fasm
