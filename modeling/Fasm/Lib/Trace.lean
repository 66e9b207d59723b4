/-!
# Runs as sequences

A run of a transition system as a sequence of its states, and the past-time operator
`Since`: something happened at a step of the run, and something else has held at every
step after it.  A trace is a run with the event of each step.
-/

namespace Fasm

variable {α : Type}

/-- The first `n` steps of `σ` are a run from an initial state. -/
structure IsRun (Init : α → Prop) (Step : α → α → Prop) (σ : Nat → α) (n : Nat) : Prop where
  init : Init (σ 0)
  step : ∀ i < n, Step (σ i) (σ (i + 1))

/-- `A` at a step before `n`, and `B` at every step between that one and `n`. -/
def Since (A B : α → Prop) (σ : Nat → α) (n : Nat) : Prop :=
  ∃ i < n, A (σ i) ∧ ∀ j, i < j → j < n → B (σ j)

variable {Init : α → Prop} {Step : α → α → Prop} {σ : Nat → α} {n : Nat}

namespace IsRun

/-- The run without its last steps. -/
theorem le (h : IsRun Init Step σ n) {m : Nat} (hm : m ≤ n) : IsRun Init Step σ m :=
  ⟨h.init, fun i hi => h.step i (Nat.lt_of_lt_of_le hi hm)⟩

/-- What holds initially and is kept by every step holds in every state of a run. -/
theorem invariant {P : α → Prop} (hinit : ∀ s, Init s → P s)
    (hstep : ∀ s s', Step s s' → P s → P s') (h : IsRun Init Step σ n) : P (σ n) := by
  induction n with
  | zero => exact hinit _ h.init
  | succ n ih => exact hstep _ _ (h.step n (Nat.lt_succ_self n)) (ih (h.le (Nat.le_succ n)))

/-- What does not hold initially and is brought about by `A` only, holds since the last `A`. -/
theorem since {A P : α → Prop} (hinit : ∀ s, Init s → ¬ P s)
    (hstep : ∀ s s', Step s s' → P s' → A s ∨ P s) (h : IsRun Init Step σ n) (hP : P (σ n)) :
    Since A (fun s => P s ∧ ¬ A s) σ n := by
  induction n with
  | zero => exact absurd hP (hinit _ h.init)
  | succ n ih =>
    by_cases hA : A (σ n)
    · exact ⟨n, Nat.lt_succ_self n, hA, fun j hj hjn => absurd hj (by omega)⟩
    · have hPn : P (σ n) :=
        (hstep _ _ (h.step n (Nat.lt_succ_self n)) hP).resolve_left hA
      obtain ⟨i, hi, hAi, hsince⟩ := ih (h.le (Nat.le_succ n)) hPn
      refine ⟨i, Nat.lt_succ_of_lt hi, hAi, fun j hij hj => ?_⟩
      rcases Nat.lt_succ_iff_lt_or_eq.mp hj with hj | rfl
      · exact hsince j hij hj
      · exact ⟨hPn, hA⟩

end IsRun

/-- Weaker events, and weaker conditions since. -/
theorem Since.mono {A B A' B' : α → Prop} (h : Since A B σ n) (hA : ∀ s, A s → A' s)
    (hB : ∀ s, B s → B' s) : Since A' B' σ n := by
  obtain ⟨i, hi, hAi, hsince⟩ := h
  exact ⟨i, hi, hA _ hAi, fun j hij hj => hB _ (hsince j hij hj)⟩

/-! ## Traces -/

/-- The first `n` steps of `σ`, at the events `ev`, are a run from an initial state. -/
structure IsTrace {ε : Type} (Init : α → Prop) (Step : α → ε → α → Prop) (σ : Nat → α)
    (ev : Nat → ε) (n : Nat) : Prop where
  init : Init (σ 0)
  step : ∀ i < n, Step (σ i) (ev i) (σ (i + 1))

namespace IsTrace

variable {ε : Type} {Step : α → ε → α → Prop} {ev : Nat → ε}

/-- The trace without its last steps. -/
theorem le (h : IsTrace Init Step σ ev n) {m : Nat} (hm : m ≤ n) : IsTrace Init Step σ ev m :=
  ⟨h.init, fun i hi => h.step i (Nat.lt_of_lt_of_le hi hm)⟩

/-- A trace without its events. -/
theorem isRun (h : IsTrace Init Step σ ev n) :
    IsRun Init (fun s s' => ∃ e, Step s e s') σ n :=
  ⟨h.init, fun i hi => ⟨ev i, h.step i hi⟩⟩

/-- What holds initially and is kept by every step that meets `C` holds in every state of a
trace all of whose steps meet it. -/
theorem invariant_of {P : α → Prop} {C : α → ε → Prop} (hinit : ∀ s, Init s → P s)
    (hstep : ∀ s e s', Step s e s' → C s e → P s → P s') (h : IsTrace Init Step σ ev n)
    (hC : ∀ i < n, C (σ i) (ev i)) : P (σ n) := by
  induction n with
  | zero => exact hinit _ h.init
  | succ n ih =>
    have hn : n < n + 1 := Nat.lt_succ_self n
    apply hstep _ _ _ (h.step n hn) (hC n hn)
    exact ih (h.le (Nat.le_succ n)) fun i hi => hC i (Nat.lt_succ_of_lt hi)

end IsTrace

end Fasm
