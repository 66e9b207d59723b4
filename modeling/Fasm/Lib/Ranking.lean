import Fasm.Lib.Shortcut
import Mathlib.Algebra.Order.Ring.Nat

/-!
# Runs that get lighter

If every move of a pushdown machine makes the top frame lighter, by more than the weight of the
callee where it enters one, then the stack as a whole gets lighter with every step: a run ends
within as many steps as the stack weighs.  If moreover callees are on lower levels than their
callers, the level of the first frame bounds the depth of the stack.
-/

namespace Fasm.Pushdown

variable {φ γ ρ τ : Type}

/-- The weight of all frames. -/
def Config.weight (weight : φ → Nat) (c : Config φ γ) : Nat := (c.stack.map weight).sum

@[simp] theorem Config.weight_cons (weight : φ → Nat) (f : φ) (s : List φ) (g : γ) :
    Config.weight weight ⟨f :: s, g⟩ = weight f + (s.map weight).sum := by
  rw [Config.weight, List.map_cons, List.sum_cons]

namespace Machine

variable {M : Machine φ γ ρ τ} {c c' : Config φ γ}

/-! ## Weights -/

variable (M) in
/-- Frames with the property `Inv` get lighter with every move. -/
structure Weighs (Inv : φ → Prop) (weight : φ → Nat) : Prop where
  keeps : M.Keeps Inv
  pos : ∀ {f}, Inv f → 0 < weight f
  stay : ∀ {f g f' g'}, Inv f → M.move f g = .stay f' g' → weight f' < weight f
  enter : ∀ {f g f' callee g'}, Inv f → M.move f g = .enter f' callee g' →
    weight f' + weight callee < weight f
  resume : ∀ f r, weight (M.resume f r) = weight f

variable (M) in
/-- The run from `c` ends with `t` within `n` turns. -/
inductive EndsWithin : Nat → Config φ γ → τ → Config φ γ → Prop
  | ends {n c t e} : M.Ends c t e → EndsWithin (n + 1) c t e
  | step {n c c' t e} : M.Step c c' → EndsWithin n c' t e → EndsWithin (n + 1) c t e

theorem EndsWithin.mono {m n : Nat} {t : τ} {e : Config φ γ} (h : M.EndsWithin m c t e)
    (hmn : m ≤ n) : M.EndsWithin n c t e := by
  induction h generalizing n with
  | ends hend =>
    cases n with
    | zero => exact absurd hmn (Nat.not_succ_le_zero _)
    | succ n => exact .ends hend
  | step hstep _ ih =>
    cases n with
    | zero => exact absurd hmn (Nat.not_succ_le_zero _)
    | succ n => exact .step hstep (ih (Nat.le_of_succ_le_succ hmn))

section Weighs

variable {Inv : φ → Prop} {weight : φ → Nat} (h : M.Weighs Inv weight)
include h

/-- The stack gets lighter with every step. -/
theorem Weighs.step (hc : ∀ f ∈ c.stack, Inv f) (hstep : M.Step c c') :
    c'.weight weight < c.weight weight := by
  cases hstep with
  | stay hm =>
    have hlt := h.stay (hc _ List.mem_cons_self) hm
    simp only [Config.weight_cons]
    omega
  | enter hm =>
    have hlt := h.enter (hc _ List.mem_cons_self) hm
    simp only [Config.weight_cons, List.map_cons, List.sum_cons]
    omega
  | leave =>
    have hpos := h.pos (hc _ List.mem_cons_self)
    simp only [Config.weight_cons, List.map_cons, List.sum_cons, h.resume]
    omega

/-- A run takes no more turns than the stack weighs. -/
theorem Weighs.endsWithin (hne : c.stack ≠ []) (hc : ∀ f ∈ c.stack, Inv f) :
    ∃ t e, M.EndsWithin (c.weight weight) c t e := by
  generalize hn : c.weight weight = n
  induction n using Nat.strongRecOn generalizing c with
  | _ n ih =>
    obtain ⟨f, below, g, rfl⟩ := Config.exists_cons hne
    have hpos := h.pos (hc f List.mem_cons_self)
    obtain ⟨m, rfl⟩ : ∃ m, n = m + 1 := by
      rw [Config.weight_cons] at hn
      exact ⟨n - 1, by omega⟩
    cases hturn : M.apply below (M.move f g) with
    | done t e => exact ⟨t, e, .ends (ends_iff.mpr (congrArg some hturn))⟩
    | next c' =>
      have hstep : M.Step ⟨f :: below, g⟩ c' := step_iff.mpr (congrArg some hturn)
      have hlt := h.step hc hstep
      rw [hn] at hlt
      obtain ⟨t, e, hend⟩ := ih _ hlt hstep.stack_ne_nil (h.keeps.step hstep hc) rfl
      exact ⟨t, e, .step hstep (hend.mono (Nat.le_of_lt_succ hlt))⟩

end Weighs

/-! ## Levels -/

variable (M) in
/-- A frame does not rise, and its callees are below it. -/
structure Levels (level : φ → Nat) : Prop where
  stay : ∀ {f g f' g'}, M.move f g = .stay f' g' → level f' ≤ level f
  enter : ∀ {f g f' callee g'}, M.move f g = .enter f' callee g' →
    level f' ≤ level f ∧ level callee < level f
  resume : ∀ f r, level (M.resume f r) = level f

/-- No frame is higher in the stack than its level allows. -/
def Levelled (level : φ → Nat) (D : Nat) : List φ → Prop
  | [] => True
  | f :: below => below.length + level f ≤ D ∧ Levelled level D below

theorem Levelled.length_le {level : φ → Nat} {D : Nat} {s : List φ} (h : Levelled level D s) :
    s.length ≤ D + 1 := by
  cases s with
  | nil => exact Nat.zero_le _
  | cons f below =>
    have hle := h.1
    rw [List.length_cons]
    omega

section Levels

variable {level : φ → Nat} {D : Nat} (h : M.Levels level)
include h

theorem Levels.step (hstep : M.Step c c') (hc : Levelled level D c.stack) :
    Levelled level D c'.stack := by
  cases hstep with
  | stay hm => exact ⟨Nat.le_trans (Nat.add_le_add_left (h.stay hm) _) hc.1, hc.2⟩
  | enter hm =>
    obtain ⟨hstay, hlt⟩ := h.enter hm
    refine ⟨?_, Nat.le_trans (Nat.add_le_add_left hstay _) hc.1, hc.2⟩
    have hle := hc.1
    rw [List.length_cons]
    omega
  | leave =>
    refine ⟨?_, hc.2.2⟩
    rw [h.resume]
    exact hc.2.1

/-- The level of the first frame bounds the depth of the stack. -/
theorem Levels.length_le {f : φ} {g : γ} (hsteps : M.Steps ⟨[f], g⟩ c) :
    c.stack.length ≤ level f + 1 := by
  suffices hlevelled : Levelled level (level f) c.stack from hlevelled.length_le
  induction hsteps with
  | refl => exact ⟨Nat.le_of_eq (Nat.zero_add _), trivial⟩
  | tail _ hstep ih => exact h.step hstep ih

end Levels

end Machine

end Fasm.Pushdown
