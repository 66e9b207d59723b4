import Fasm.Lib.Pushdown

/-!
# Calls that are answered at once

A frame that enters a callee waits for the callee's value.  Another machine may be given the
value at once, from a cache or from faster code.  If it is the value with which the callee
would have come back, the second machine goes through states of the first one, with the calls
cut out, and ends as the first one does, unless that runs out of stack on the way.
-/

namespace Fasm.Pushdown

variable {φ γ ρ τ : Type}

/-- The state with more frames at the bottom. -/
def Config.above (below : List φ) (c : Config φ γ) : Config φ γ := ⟨c.stack ++ below, c.shared⟩

@[simp] theorem Config.above_mk (below s : List φ) (g : γ) :
    Config.above below ⟨s, g⟩ = ⟨s ++ below, g⟩ := rfl

theorem Config.exists_cons {c : Config φ γ} (h : c.stack ≠ []) :
    ∃ f below g, c = ⟨f :: below, g⟩ := by
  obtain ⟨f, below, hstack⟩ := List.exists_cons_of_ne_nil h
  exact ⟨f, below, c.shared, Config.ext hstack rfl⟩

namespace Machine

variable {M : Machine φ γ ρ τ} {c c' c₁ c₂ d d' e e' : Config φ γ} {t t' : τ}

/-! ## A run has one course -/

theorem Step.unique (h : M.Step c c₁) (h' : M.Step c c₂) : c₁ = c₂ := by
  have heq := (step_iff.mp h).symm.trans (step_iff.mp h')
  cases heq
  rfl

theorem Ends.unique (h : M.Ends c t e) (h' : M.Ends c t' e') : t = t' ∧ e = e' := by
  have heq := (ends_iff.mp h).symm.trans (ends_iff.mp h')
  cases heq
  exact ⟨rfl, rfl⟩

theorem Step.not_ends (h : M.Step c c') : ¬ M.Ends c t e := fun hend => by
  have heq := (step_iff.mp h).symm.trans (ends_iff.mp hend)
  cases heq

/-- A run that ends goes through every state that its start reaches. -/
theorem Ends.steps (hend : M.Ends d t e) (hd : M.Steps c d) (hc : M.Steps c c') : M.Steps c' d := by
  induction hc with
  | refl => exact hd
  | tail _ hstep ih =>
    rcases Relation.ReflTransGen.cases_head ih with rfl | ⟨b, hb, hrest⟩
    · exact absurd hend hstep.not_ends
    · rwa [hstep.unique hb]

/-- A run ends once. -/
theorem Ends.once (hend : M.Ends d t e) (hd : M.Steps c d) (hend' : M.Ends d' t' e')
    (hd' : M.Steps c d') : t = t' ∧ e = e' := by
  rcases Relation.ReflTransGen.cases_head (hend.steps hd hd') with rfl | ⟨b, hb, -⟩
  · exact hend.unique hend'
  · exact absurd hend' hb.not_ends

/-- Where a run ends, there is no endless one. -/
theorem Ends.acc (hend : M.Ends d t e) (hd : M.Steps c d) : Acc (fun a b => M.Step b a) c := by
  induction hd using Relation.ReflTransGen.head_induction_on with
  | refl => exact ⟨_, fun a ha => absurd hend ha.not_ends⟩
  | head hstep _ ih =>
    refine ⟨_, fun a ha => ?_⟩
    rwa [ha.unique hstep]

/-! ## Ends of runs -/

variable (M) in
/-- The run from `c` ends with `t`. -/
def EndsIn (c : Config φ γ) (t : τ) (e : Config φ γ) : Prop := ∃ d, M.Steps c d ∧ M.Ends d t e

variable (M) in
/-- The run from `c` exceeds the limit. -/
def Overflows (c : Config φ γ) : Prop := ∃ e, M.EndsIn c M.overflow e

theorem EndsIn.of_steps (h : M.EndsIn c' t e) (hc : M.Steps c c') : M.EndsIn c t e := by
  obtain ⟨d, hd, hend⟩ := h
  exact ⟨d, hc.trans hd, hend⟩

theorem Overflows.of_steps (h : M.Overflows c') (hc : M.Steps c c') : M.Overflows c := by
  obtain ⟨e, hend⟩ := h
  exact ⟨e, hend.of_steps hc⟩

theorem EndsIn.unique (h : M.EndsIn c t e) (h' : M.EndsIn c t' e') : t = t' ∧ e = e' := by
  obtain ⟨d, hd, hend⟩ := h
  obtain ⟨d', hd', hend'⟩ := h'
  exact hend.once hd hend' hd'

/-! ## Runs above other frames -/

/-- A step is one above other frames as well, if there is room. -/
theorem Step.above (h : M.Step c c') (below : List φ) :
    M.Step (c.above below) (c'.above below) ∨ M.Overflows (c.above below) := by
  cases h with
  | stay hm => exact .inl (.stay hm)
  | @enter f g f' callee g' s hm _ =>
    by_cases hd : (s ++ below).length + 1 < M.limit
    · exact .inl (.enter hm hd)
    · exact .inr ⟨_, _, .refl, .overflow hm (Nat.le_of_not_lt hd)⟩
  | leave hm => exact .inl (.leave hm)

theorem Steps.above (h : M.Steps c c') (below : List φ) :
    M.Steps (c.above below) (c'.above below) ∨ M.Overflows (c.above below) := by
  induction h with
  | refl => exact .inl .refl
  | tail _ hstep ih =>
    rcases ih with hsteps | hover
    · exact (hstep.above below).imp hsteps.tail fun hover => hover.of_steps hsteps
    · exact .inr hover

variable (M) in
/-- The callee, run on its own, comes back with `r`. -/
def Answers (callee : φ) (g : γ) (r : ρ) (g' : γ) : Prop :=
  ∃ f g₁, M.Steps ⟨[callee], g⟩ ⟨[f], g₁⟩ ∧ M.move f g₁ = .leave r g'

section Answers

variable {callee : φ} {g g' : γ} {r : ρ} (h : M.Answers callee g r g')
include h

/-- Above a frame, the callee comes back to it. -/
theorem Answers.resumes (k : φ) (below : List φ) :
    Relation.TransGen M.Step ⟨callee :: k :: below, g⟩ ⟨M.resume k r :: below, g'⟩ ∨
      M.Overflows ⟨callee :: k :: below, g⟩ := by
  obtain ⟨f, g₁, hsteps, hleave⟩ := h
  refine (Steps.above hsteps (k :: below)).imp_left fun hsteps => ?_
  exact Relation.TransGen.tail' hsteps (.leave hleave)

/-- At the bottom of the stack, its value is the result. -/
theorem Answers.finishes : M.EndsIn ⟨[callee], g⟩ (M.finish r) ⟨[], g'⟩ := by
  obtain ⟨f, g₁, hsteps, hleave⟩ := h
  exact ⟨_, hsteps, .leave hleave⟩

end Answers

/-! ## Cutting calls out -/

variable (M) in
/-- The move of `M`, or one that has the answer of the callee at once.  A frame that is replaced by
the callee leaves with that answer. -/
inductive Spares (f : φ) (g : γ) : Move φ γ ρ τ → Prop
  | same : Spares f g (M.move f g)
  | call {k callee g₀ r g'} : M.move f g = .enter k callee g₀ → M.Answers callee g₀ r g' →
    Spares f g (.stay (M.resume k r) g')
  | tailCall {callee g₀ r g'} : M.move f g = .stay callee g₀ → M.Answers callee g₀ r g' →
    Spares f g (.leave r g')

variable {cut : φ → γ → Move φ γ ρ τ}

/-- Another machine takes the steps of `M` for which it makes the same moves. -/
theorem Step.of_move {f : φ} {below : List φ} {g : γ} (hcut : cut f g = M.move f g)
    (h : (M.withMove cut).Step ⟨f :: below, g⟩ c') : M.Step ⟨f :: below, g⟩ c' := by
  cases h with
  | stay hm => exact .stay (hcut.symm.trans hm)
  | enter hm hd => exact .enter (hcut.symm.trans hm) hd
  | leave hm => exact .leave (hcut.symm.trans hm)

theorem Ends.of_move {f : φ} {below : List φ} {g : γ} (hcut : cut f g = M.move f g)
    (h : (M.withMove cut).Ends ⟨f :: below, g⟩ t c') : M.Ends ⟨f :: below, g⟩ t c' := by
  cases h with
  | overflow hm hd => exact .overflow (hcut.symm.trans hm) hd
  | leave hm => exact .leave (hcut.symm.trans hm)
  | stop hm => exact .stop (hcut.symm.trans hm)

/-- A step with a call cut out is a step of `M`, or several. -/
theorem Spares.step {f : φ} {below : List φ} {g : γ} {m : Move φ γ ρ τ} (h : M.Spares f g m)
    (hcut : cut f g = m) (hstep : (M.withMove cut).Step ⟨f :: below, g⟩ c') :
    Relation.TransGen M.Step ⟨f :: below, g⟩ c' ∨ M.Overflows ⟨f :: below, g⟩ := by
  cases h with
  | same => exact .inl (.single (.of_move hcut hstep))
  | @call k callee g₀ r g' henter hanswers =>
    cases hstep with
    | stay hm =>
      cases hcut.symm.trans hm
      by_cases hd : below.length + 1 < M.limit
      · have hin : M.Step ⟨f :: below, g⟩ ⟨callee :: k :: below, g₀⟩ := .enter henter hd
        exact (hanswers.resumes k below).imp (.head hin) fun hover => hover.of_steps (.single hin)
      · exact .inr ⟨_, _, .refl, .overflow henter (Nat.le_of_not_lt hd)⟩
    | enter hm => cases hcut.symm.trans hm
    | leave hm => cases hcut.symm.trans hm
  | @tailCall callee g₀ r g' hstay hanswers =>
    cases hstep with
    | stay hm => cases hcut.symm.trans hm
    | enter hm => cases hcut.symm.trans hm
    | @leave _ _ _ _ caller rest hm =>
      cases hcut.symm.trans hm
      have hin : M.Step ⟨f :: caller :: rest, g⟩ ⟨callee :: caller :: rest, g₀⟩ := .stay hstay
      exact (hanswers.resumes caller rest).imp (.head hin) fun hover => hover.of_steps (.single hin)

theorem Spares.ends {f : φ} {below : List φ} {g : γ} {m : Move φ γ ρ τ} (h : M.Spares f g m)
    (hcut : cut f g = m) (hend : (M.withMove cut).Ends ⟨f :: below, g⟩ t c') :
    M.EndsIn ⟨f :: below, g⟩ t c' := by
  cases h with
  | same => exact ⟨_, .refl, .of_move hcut hend⟩
  | call =>
    cases hend with
    | overflow hm => cases hcut.symm.trans hm
    | leave hm => cases hcut.symm.trans hm
    | stop hm => cases hcut.symm.trans hm
  | tailCall hstay hanswers =>
    cases hend with
    | overflow hm => cases hcut.symm.trans hm
    | leave hm =>
      cases hcut.symm.trans hm
      exact hanswers.finishes.of_steps (.single (.stay hstay))
    | stop hm => cases hcut.symm.trans hm

/-- The other machine only spares calls, in every state that `c` reaches. -/
def SparesFrom (M : Machine φ γ ρ τ) (cut : φ → γ → Move φ γ ρ τ) (c : Config φ γ) : Prop :=
  ∀ f below g, M.Steps c ⟨f :: below, g⟩ → M.Spares f g (cut f g)

theorem SparesFrom.of_steps (h : M.SparesFrom cut c) (hc : M.Steps c c') : M.SparesFrom cut c' :=
  fun f below g hsteps => h f below g (hc.trans hsteps)

/-- A run with calls cut out only goes through states of the whole run. -/
theorem SparesFrom.steps (h : M.SparesFrom cut c) (hsteps : (M.withMove cut).Steps c c') :
    M.Steps c c' ∨ M.Overflows c := by
  induction hsteps with
  | refl => exact .inl .refl
  | @tail b b' _ hstep ih =>
    rcases ih with hb | hover
    · obtain ⟨f, below, g, rfl⟩ := Config.exists_cons hstep.source_ne_nil
      exact ((h f below _ hb).step rfl hstep).imp (fun hmore => hb.trans hmore.to_reflTransGen)
        fun hover => hover.of_steps hb
    · exact .inr hover

/-- What it ends with, the whole run ends with. -/
theorem SparesFrom.endsIn (h : M.SparesFrom cut c) (hend : (M.withMove cut).EndsIn c t e) :
    M.EndsIn c t e ∨ M.Overflows c := by
  obtain ⟨d, hsteps, hend⟩ := hend
  refine (h.steps hsteps).imp_left fun hd => ?_
  obtain ⟨f, below, g, rfl⟩ := Config.exists_cons hend.stack_ne_nil
  exact ((h f below _ hd).ends rfl hend).of_steps hd

/-- What the whole run ends with, other than by an overflow, it ends with. -/
theorem SparesFrom.endsIn_cut (h : M.SparesFrom cut c) (hend : M.EndsIn c t e)
    (ht : t ≠ M.overflow) : (M.withMove cut).EndsIn c t e := by
  obtain ⟨d, hd, hend⟩ := hend
  -- each step with calls cut out brings the run nearer to its end
  have hacc := (hend.acc hd).transGen
  induction hacc with
  | intro c _ ih =>
    have hover : ¬ M.Overflows c := fun ⟨e', hend'⟩ =>
      ht (EndsIn.unique ⟨d, hd, hend⟩ hend').1
    have hne : c.stack ≠ [] := by
      rcases Relation.ReflTransGen.cases_head hd with rfl | ⟨_, hstep, -⟩
      · exact hend.stack_ne_nil
      · exact hstep.source_ne_nil
    obtain ⟨f, below, g, rfl⟩ := Config.exists_cons hne
    have hspares := h f below _ .refl
    cases hturn : (M.withMove cut).apply below (cut f g) with
    | next c' =>
      have hstep : (M.withMove cut).Step ⟨f :: below, g⟩ c' :=
        step_iff.mpr (congrArg some hturn)
      have hmore := (hspares.step rfl hstep).resolve_right hover
      have hc' := hmore.to_reflTransGen
      exact (ih c' (Relation.transGen_swap.mpr hmore) (h.of_steps hc')
        (hend.steps hd hc')).of_steps (.single hstep)
    | done t' e' =>
      have hend' : (M.withMove cut).Ends ⟨f :: below, g⟩ t' e' :=
        ends_iff.mpr (congrArg some hturn)
      obtain ⟨rfl, rfl⟩ := (hspares.ends rfl hend').unique ⟨d, hd, hend⟩
      exact ⟨_, .refl, hend'⟩

end Machine

end Fasm.Pushdown
