import Fasm.Lib.Pushdown

/-!
# Lowering a pushdown machine

A pushdown machine lowers to another one when its frames stand for frames of the other and
corresponding frames make corresponding moves.  The upper machine may give no meaning to a
move; it then stops without a result, and nothing is said about the lower machine.

The runs of two such machines are in lock step, in both directions.
-/

namespace Fasm.Pushdown

variable {φ φ' γ ρ τ : Type}

/-- A move of the upper machine and what the lower machine does for it. -/
inductive Move.LowersTo (lower : φ → φ') : Move φ γ ρ (Option τ) → Move φ' γ ρ τ → Prop
  | stay {f g} : LowersTo lower (.stay f g) (.stay (lower f) g)
  | enter {f callee g} : LowersTo lower (.enter f callee g) (.enter (lower f) (lower callee) g)
  | leave {r g} : LowersTo lower (.leave r g) (.leave r g)
  | stop {t f g} : LowersTo lower (.stop (some t) f g) (.stop t (lower f) g)
  /-- where the upper move has no meaning, the lower machine may do anything -/
  | undefined {f g m} : LowersTo lower (.stop none f g) m

/-- The state with all its frames lowered. -/
def Config.lower (lower : φ → φ') (c : Config φ γ) : Config φ' γ := ⟨c.stack.map lower, c.shared⟩

@[simp] theorem Config.lower_cons (lower : φ → φ') (f : φ) (s : List φ) (g : γ) :
    Config.lower lower ⟨f :: s, g⟩ = ⟨lower f :: s.map lower, g⟩ := rfl

namespace Machine

/-- `M` lowers to `N` as long as its frames satisfy `Inv`. -/
structure Lowers (M : Machine φ γ ρ (Option τ)) (N : Machine φ' γ ρ τ) (lower : φ → φ')
    (Inv : φ → Prop) : Prop where
  keeps : M.Keeps Inv
  move : ∀ {f g}, Inv f → (M.move f g).LowersTo lower (N.move (lower f) g)
  resume : ∀ f r, lower (M.resume f r) = N.resume (lower f) r
  limit : M.limit = N.limit
  overflow : M.overflow = some N.overflow
  finish : ∀ r, M.finish r = some (N.finish r)

namespace Lowers

variable {M : Machine φ γ ρ (Option τ)} {N : Machine φ' γ ρ τ} {lower : φ → φ'} {Inv : φ → Prop}
  (h : M.Lowers N lower Inv) {c c' : Config φ γ} {d : Config φ' γ} {t : τ}
include h

/-! ## One move -/

section Move

variable {f f' callee : φ} {g g' : γ} {r : ρ} (hf : Inv f)
include hf

theorem move_stay (hm : M.move f g = .stay f' g') : N.move (lower f) g = .stay (lower f') g' := by
  have hmove := h.move (g := g) hf
  rw [hm] at hmove
  generalize N.move (lower f) g = n at hmove ⊢
  cases hmove
  rfl

theorem move_enter (hm : M.move f g = .enter f' callee g') :
    N.move (lower f) g = .enter (lower f') (lower callee) g' := by
  have hmove := h.move (g := g) hf
  rw [hm] at hmove
  generalize N.move (lower f) g = n at hmove ⊢
  cases hmove
  rfl

theorem move_leave (hm : M.move f g = .leave r g') : N.move (lower f) g = .leave r g' := by
  have hmove := h.move (g := g) hf
  rw [hm] at hmove
  generalize N.move (lower f) g = n at hmove ⊢
  cases hmove
  rfl

theorem move_stop (hm : M.move f g = .stop (some t) f' g') :
    N.move (lower f) g = .stop t (lower f') g' := by
  have hmove := h.move (g := g) hf
  rw [hm] at hmove
  generalize N.move (lower f) g = n at hmove ⊢
  cases hmove
  rfl

end Move

/-! ## One step -/

/-- A step of the upper machine is one of the lower machine. -/
theorem step (hc : ∀ f ∈ c.stack, Inv f) (hstep : M.Step c c') :
    N.Step (c.lower lower) (c'.lower lower) := by
  cases hstep with
  | stay hm => exact .stay (h.move_stay (hc _ List.mem_cons_self) hm)
  | enter hm hd =>
    refine .enter (h.move_enter (hc _ List.mem_cons_self) hm) ?_
    rwa [List.length_map, ← h.limit]
  | leave hm =>
    simp only [Config.lower_cons, List.map_cons, h.resume]
    exact .leave (h.move_leave (hc _ List.mem_cons_self) hm)

/-- Where the upper machine ends with a result, so does the lower machine. -/
theorem ends (hc : ∀ f ∈ c.stack, Inv f) (hend : M.Ends c (some t) c') :
    N.Ends (c.lower lower) t (c'.lower lower) := by
  generalize ho : some t = o at hend
  cases hend with
  | overflow hm hd =>
    obtain rfl : t = N.overflow := Option.some.inj (ho.trans h.overflow)
    refine .overflow (h.move_enter (hc _ List.mem_cons_self) hm) ?_
    rwa [List.length_map, ← h.limit]
  | @leave f g r g' hm =>
    obtain rfl : t = N.finish r := Option.some.inj (ho.trans (h.finish r))
    exact .leave (h.move_leave (hc _ List.mem_cons_self) hm)
  | stop hm =>
    subst ho
    exact .stop (h.move_stop (hc _ List.mem_cons_self) hm)

/-- A step of the lower machine is one of the upper machine, unless that stops without a
result. -/
theorem step_of_lower (hc : ∀ f ∈ c.stack, Inv f) (hstep : N.Step (c.lower lower) d) :
    (∃ c', M.Step c c' ∧ d = c'.lower lower) ∨ ∃ c', M.Ends c none c' := by
  obtain ⟨stack, g⟩ := c
  cases stack with
  | nil => exact absurd rfl hstep.source_ne_nil
  | cons f below =>
    have hmove := h.move (g := g) (hc _ List.mem_cons_self)
    generalize hm : M.move f g = m at hmove
    generalize hn : N.move _ _ = n at hmove
    rw [step_iff, turn, Config.lower_cons] at hstep
    cases hmove with
    | stay =>
      simp only [hn, apply, Option.some.injEq, Turn.next.injEq] at hstep
      exact .inl ⟨_, .stay hm, hstep.symm⟩
    | enter =>
      simp only [hn, apply, Option.some.injEq] at hstep
      split at hstep
      case isTrue => cases hstep
      case isFalse hd =>
        cases hstep
        rw [List.length_map, ← h.limit] at hd
        exact .inl ⟨_, .enter hm (Nat.lt_of_not_le hd), rfl⟩
    | leave =>
      cases below with
      | nil => simp [hn, apply] at hstep
      | cons caller below =>
        simp only [hn, apply, List.map_cons, Option.some.injEq, Turn.next.injEq] at hstep
        refine .inl ⟨_, .leave hm, ?_⟩
        rw [← hstep, ← h.resume, Config.lower_cons]
    | stop => simp [hn, apply] at hstep
    | undefined => exact .inr ⟨_, .stop hm⟩

/-- Where the lower machine ends, the upper machine ends with the same result or with none. -/
theorem ends_of_lower (hc : ∀ f ∈ c.stack, Inv f) (hend : N.Ends (c.lower lower) t d) :
    (∃ c', M.Ends c (some t) c' ∧ d = c'.lower lower) ∨ ∃ c', M.Ends c none c' := by
  obtain ⟨stack, g⟩ := c
  cases stack with
  | nil => exact absurd rfl hend.stack_ne_nil
  | cons f below =>
    have hmove := h.move (g := g) (hc _ List.mem_cons_self)
    generalize hm : M.move f g = m at hmove
    generalize hn : N.move _ _ = n at hmove
    rw [ends_iff, turn, Config.lower_cons] at hend
    cases hmove with
    | stay => simp [hn, apply] at hend
    | enter =>
      simp only [hn, apply, Option.some.injEq] at hend
      split at hend
      case isTrue hd =>
        cases hend
        rw [List.length_map, ← h.limit] at hd
        have hend := Ends.overflow hm hd
        rw [h.overflow] at hend
        exact .inl ⟨_, hend, rfl⟩
      case isFalse => cases hend
    | leave =>
      cases below with
      | nil =>
        simp only [hn, apply, List.map_nil, Option.some.injEq, Turn.done.injEq] at hend
        obtain ⟨rfl, rfl⟩ := hend
        have hend := Ends.leave hm
        rw [h.finish] at hend
        exact .inl ⟨_, hend, rfl⟩
      | cons => simp [hn, apply] at hend
    | stop =>
      simp only [hn, apply, Option.some.injEq, Turn.done.injEq] at hend
      obtain ⟨rfl, rfl⟩ := hend
      exact .inl ⟨_, .stop hm, rfl⟩
    | undefined => exact .inr ⟨_, .stop hm⟩

/-! ## Runs -/

/-- A run of the upper machine is one of the lower machine. -/
theorem steps (hc : ∀ f ∈ c.stack, Inv f) (hsteps : M.Steps c c') :
    N.Steps (c.lower lower) (c'.lower lower) := by
  induction hsteps with
  | refl => exact .refl
  | tail hsteps hstep ih => exact ih.tail (h.step (h.keeps.steps hsteps hc) hstep)

/-- A run of the lower machine is one of the upper machine, unless that stops without a result
on the way. -/
theorem steps_of_lower (hc : ∀ f ∈ c.stack, Inv f) (hsteps : N.Steps (c.lower lower) d) :
    (∃ c', M.Steps c c' ∧ d = c'.lower lower) ∨ ∃ c₁ c₂, M.Steps c c₁ ∧ M.Ends c₁ none c₂ := by
  induction hsteps with
  | refl => exact .inl ⟨c, .refl, rfl⟩
  | tail _ hstep ih =>
    rcases ih with ⟨c₁, hc₁, rfl⟩ | hundef
    · rcases h.step_of_lower (h.keeps.steps hc₁ hc) hstep with ⟨c₂, hc₂, rfl⟩ | ⟨c₂, hend⟩
      · exact .inl ⟨c₂, hc₁.tail hc₂, rfl⟩
      · exact .inr ⟨c₁, c₂, hc₁, hend⟩
    · exact .inr hundef

end Lowers

end Machine

end Fasm.Pushdown
