import Fasm.Lib.Lowering
import Mathlib.Logic.Function.Defs

/-!
# Contracts of a pushdown machine

Partial correctness, one activation at a time.  A contract says where a frame may be entered and
with what it may be left then.  An activation is verified by an invariant of its own moves, in
which a call counts for no more than its contract: what is entered satisfies its precondition, and
the caller goes on with whatever satisfies its postcondition.

Activations that are verified one by one make a correct run, however deep the stack becomes, and
every correct run is verified by some contract.
-/

namespace Fasm.Pushdown

variable {φ γ ρ τ : Type}

/-- The start of an activation: the number of frames below it, its frame, and what is shared. -/
structure Activation (φ γ : Type) where
  depth : Nat
  frame : φ
  shared : γ

/-- Where frames may be entered, and with what they may be left then. -/
structure Contract (φ γ ρ : Type) where
  pre : Activation φ γ → Prop
  post : Activation φ γ → ρ → γ → Prop

namespace Machine

variable (M : Machine φ γ ρ τ)

/-- Every end of the run is a return of its first frame with a value in `R`, or an end in `T`. -/
def Correct (R : ρ → γ → Prop) (T : τ → Prop) (c₁ : Config φ γ) : Prop :=
  ∀ c t c', M.Steps c₁ c → M.Ends c t c' →
    (c'.stack = [] ∧ ∃ r, t = M.finish r ∧ R r c'.shared) ∨ (c'.stack ≠ [] ∧ T t)

/-- The move keeps the activation `a` in `K`, leaves it as the contract promises, or ends the run
in `T`; its calls are by contract. -/
def Respects (C : Contract φ γ ρ) (T : τ → Prop) (a : Activation φ γ) (K : φ → γ → Prop) :
    Move φ γ ρ τ → Prop
  | .stay f g => K f g
  | .enter f callee g =>
    if M.limit ≤ a.depth + 1 then T M.overflow
    else C.pre ⟨a.depth + 1, callee, g⟩ ∧
      ∀ r g', C.post ⟨a.depth + 1, callee, g⟩ r g' → K (M.resume f r) g'
  | .leave r g => C.post a r g
  | .stop t _ _ => T t

/-- The invariant verifies every activation that is entered as the contract requires. -/
structure Verifies (C : Contract φ γ ρ) (T : τ → Prop) (Inv : Activation φ γ → φ → γ → Prop) :
    Prop where
  entry : ∀ {a}, C.pre a → Inv a a.frame a.shared
  move : ∀ {a f g}, Inv a f g → M.Respects C T a (Inv a) (M.move f g)

/-- The frames below the activation, down to `a₁`: each may go on with what the one above it is
left with. -/
inductive Awaits (C : Contract φ γ ρ) (Inv : Activation φ γ → φ → γ → Prop)
    (a₁ : Activation φ γ) : Activation φ γ → List φ → Prop
  | bottom : Awaits C Inv a₁ a₁ []
  | caller {a a' f below} (hdepth : a'.depth = a.depth + 1)
    (hpost : ∀ r g, C.post a' r g → Inv a (M.resume f r) g) (hbelow : Awaits C Inv a₁ a below) :
    Awaits C Inv a₁ a' (f :: below)

/-- The activation on top is verified, and those below wait for what it is left with. -/
def Active (C : Contract φ γ ρ) (Inv : Activation φ γ → φ → γ → Prop) (a₁ : Activation φ γ)
    (c : Config φ γ) : Prop :=
  ∃ a f below, c.stack = f :: below ∧ Inv a f c.shared ∧ M.Awaits C Inv a₁ a below

variable {M} {C : Contract φ γ ρ} {T : τ → Prop} {Inv : Activation φ γ → φ → γ → Prop}
  {a₁ : Activation φ γ} {c c' : Config φ γ} {t : τ} {f₁ : φ} {g₁ : γ}

theorem Awaits.depth_eq {a : Activation φ γ} {below : List φ} (h : M.Awaits C Inv a₁ a below) :
    a.depth = a₁.depth + below.length := by
  induction h with
  | bottom => rfl
  | caller hdepth _ _ ih => rw [hdepth, ih, List.length_cons, Nat.add_assoc]

/-- Frames keep what moves keep. -/
theorem Respects.and_keeps {P : φ → Prop} {K : φ → γ → Prop} {f : φ} {g : γ} (hP : M.Keeps P)
    (hf : P f) (h : M.Respects C T a₁ (fun f g => P f → K f g) (M.move f g)) :
    M.Respects C T a₁ (fun f g => P f ∧ K f g) (M.move f g) := by
  cases hm : M.move f g with
  | stay f' g' =>
    rw [hm] at h
    exact ⟨hP.stay hm hf, h (hP.stay hm hf)⟩
  | enter f' callee g' =>
    rw [hm] at h
    revert h
    rw [Respects, Respects]
    split
    case isTrue => exact id
    case isFalse =>
      refine fun ⟨hpre, hpost⟩ => ⟨hpre, fun r g'' hr => ?_⟩
      have hf' := hP.resume r (hP.enter hm hf).1
      exact ⟨hf', hpost r g'' hr hf'⟩
  | leave r g' =>
    rw [hm] at h
    exact h
  | stop t f' g' =>
    rw [hm] at h
    exact h

/-! ## Soundness -/

namespace Verifies

variable (h : M.Verifies C T Inv)
include h

theorem active (hpre : C.pre a₁) : M.Active C Inv a₁ ⟨[a₁.frame], a₁.shared⟩ :=
  ⟨a₁, a₁.frame, [], rfl, h.entry hpre, .bottom⟩

/-- One step: a call is verified from its precondition, and its caller from its postcondition. -/
theorem step (hc : M.Active C Inv a₁ c) (hbottom : a₁.depth = 0) (hstep : M.Step c c') :
    M.Active C Inv a₁ c' := by
  obtain ⟨a, f, below, hstack, hinv, hbelow⟩ := hc
  have hmove := h.move hinv
  cases hstep with
  | stay hm =>
    cases hstack
    rw [hm] at hmove
    exact ⟨a, _, below, rfl, hmove, hbelow⟩
  | enter hm hd =>
    cases hstack
    rw [hm, Respects, hbelow.depth_eq, hbottom, Nat.zero_add, if_neg (Nat.not_le_of_lt hd)] at hmove
    obtain ⟨hpre, hpost⟩ := hmove
    refine ⟨_, _, _, rfl, h.entry hpre, .caller ?_ hpost hbelow⟩
    rw [hbelow.depth_eq, hbottom, Nat.zero_add]
  | leave hm =>
    cases hstack
    rw [hm] at hmove
    cases hbelow with
    | caller _ hpost hbelow => exact ⟨_, _, _, rfl, hpost _ _ hmove, hbelow⟩

theorem steps (hc : M.Active C Inv a₁ c) (hbottom : a₁.depth = 0) (hsteps : M.Steps c c') :
    M.Active C Inv a₁ c' := by
  induction hsteps with
  | refl => exact hc
  | tail _ hstep ih => exact h.step ih hbottom hstep

/-- The bottom activation is left as its contract promises. -/
theorem ends (hc : M.Active C Inv a₁ c) (hbottom : a₁.depth = 0) (hend : M.Ends c t c') :
    (c'.stack = [] ∧ ∃ r, t = M.finish r ∧ C.post a₁ r c'.shared) ∨ (c'.stack ≠ [] ∧ T t) := by
  obtain ⟨a, f, below, hstack, hinv, hbelow⟩ := hc
  have hmove := h.move hinv
  cases hend with
  | overflow hm hd =>
    cases hstack
    rw [hm, Respects, hbelow.depth_eq, hbottom, Nat.zero_add, if_pos hd] at hmove
    exact .inr ⟨List.cons_ne_nil _ _, hmove⟩
  | leave hm =>
    cases hstack
    rw [hm] at hmove
    cases hbelow with
    | bottom => exact .inl ⟨rfl, _, rfl, hmove⟩
  | stop hm =>
    cases hstack
    rw [hm] at hmove
    exact .inr ⟨List.cons_ne_nil _ _, hmove⟩

/-- A verified contract makes the run correct. -/
theorem correct (hpre : C.pre ⟨0, f₁, g₁⟩) : M.Correct (C.post ⟨0, f₁, g₁⟩) T ⟨[f₁], g₁⟩ :=
  fun _ _ _ hsteps hend => h.ends (h.steps (h.active hpre) rfl hsteps) rfl hend

end Verifies

/-! ## Completeness -/

section Completeness

variable {below below' : List φ}

/-- A step above some frames is one above any others, if they are as many. -/
theorem Step.rebase {s : List φ} {g : γ} (hs : s ≠ []) (h : M.Step ⟨s ++ below, g⟩ c')
    (hlen : below'.length = below.length) (hd : below.length < c'.stack.length) :
    ∃ s' g', s' ≠ [] ∧ c' = ⟨s' ++ below, g'⟩ ∧ M.Step ⟨s ++ below', g⟩ ⟨s' ++ below', g'⟩ := by
  obtain ⟨f, s, rfl⟩ := List.exists_cons_of_ne_nil hs
  generalize hstack : f :: s ++ below = stack at h
  cases h with
  | stay hm =>
    cases hstack
    exact ⟨_ :: s, _, List.cons_ne_nil _ _, rfl, .stay hm⟩
  | enter hm hlt =>
    cases hstack
    refine ⟨_ :: _ :: s, _, List.cons_ne_nil _ _, rfl, .enter hm ?_⟩
    have hsame : (s ++ below').length = (s ++ below).length := by
      rw [List.length_append, List.length_append, hlen]
    exact hsame.symm ▸ hlt
  | leave hm =>
    cases s with
    | nil =>
      cases hstack
      exact absurd hd (Nat.lt_irrefl _)
    | cons caller s =>
      cases hstack
      exact ⟨_ :: s, _, List.cons_ne_nil _ _, rfl, .leave hm⟩

theorem StepsAbove.rebase {s : List φ} {g : γ} (hs : s ≠ [])
    (h : M.StepsAbove below.length ⟨s ++ below, g⟩ c') (hlen : below'.length = below.length) :
    ∃ s' g', s' ≠ [] ∧ c' = ⟨s' ++ below, g'⟩ ∧
      M.StepsAbove below.length ⟨s ++ below', g⟩ ⟨s' ++ below', g'⟩ := by
  induction h with
  | refl => exact ⟨s, g, hs, rfl, .refl⟩
  | tail _ hstep ih =>
    obtain ⟨s₁, g₁, hs₁, rfl, hsteps⟩ := ih
    obtain ⟨s₂, g₂, hs₂, rfl, hstep'⟩ := hstep.1.rebase hs₁ hlen hstep.2
    refine ⟨s₂, g₂, hs₂, rfl, hsteps.tail ⟨hstep', ?_⟩⟩
    have hd := hstep.2
    rwa [List.length_append, ← hlen, ← List.length_append, hlen] at hd

theorem StepsAbove.steps {d : Nat} (h : M.StepsAbove d c c') : M.Steps c c' :=
  Relation.ReflTransGen.mono (fun _ _ hstep => hstep.1) _ _ h

variable (M) in
/-- The run from `c₁` comes to the activation. -/
def Comes (c₁ : Config φ γ) (a : Activation φ γ) (below : List φ) : Prop :=
  below.length = a.depth ∧ M.Steps c₁ ⟨a.frame :: below, a.shared⟩

variable (M) in
/-- What an activation comes to before it is left. -/
def During (c₁ : Config φ γ) (a : Activation φ γ) (f : φ) (g : γ) : Prop :=
  ∃ below, M.Comes c₁ a below ∧
    M.StepsAbove a.depth ⟨a.frame :: below, a.shared⟩ ⟨f :: below, g⟩

variable (M) in
/-- The activations of a run, and what they are left with. -/
def ofRun (c₁ : Config φ γ) : Contract φ γ ρ where
  pre a := ∃ below, M.Comes c₁ a below
  post a r g := ∃ f g', M.During c₁ a f g' ∧ M.move f g' = .leave r g

variable {c₁ : Config φ γ} {a : Activation φ γ} {f : φ} {g : γ}

theorem During.steps (h : M.During c₁ a f g) :
    ∃ below, below.length = a.depth ∧ M.Steps c₁ ⟨f :: below, g⟩ := by
  obtain ⟨below, ⟨hlen, hcomes⟩, habove⟩ := h
  exact ⟨below, hlen, hcomes.trans habove.steps⟩

/-- A caller goes on in its activation with what its callee is left with. -/
theorem During.resume {callee f' : φ} {g' g'' : γ} {r : ρ} (h : M.During c₁ a f g)
    (hm : M.move f g = .enter f' callee g') (hd : ¬ M.limit ≤ a.depth + 1)
    (hpost : (M.ofRun c₁).post ⟨a.depth + 1, callee, g'⟩ r g'') :
    M.During c₁ a (M.resume f' r) g'' := by
  obtain ⟨below, ⟨hlen, hcomes⟩, habove⟩ := h
  obtain ⟨f₂, g₂, ⟨below', ⟨hlen', -⟩, habove'⟩, hleave⟩ := hpost
  have hdeep : below'.length = a.depth + 1 := hlen'
  have hsame : (f' :: below).length = below'.length := by rw [List.length_cons, hlen, hdeep]
  have hrun : M.StepsAbove below'.length ⟨[callee] ++ below', g'⟩ ⟨f₂ :: below', g₂⟩ := by
    rw [hdeep]
    exact habove'
  obtain ⟨s, g₃, hs, heq, hsteps⟩ := hrun.rebase (List.cons_ne_nil _ _) hsame
  obtain ⟨rfl, rfl⟩ : s = [f₂] ∧ g₂ = g₃ := by
    have hstack : [f₂] ++ below' = s ++ below' := congrArg Config.stack heq
    exact ⟨(List.append_cancel_right hstack).symm, congrArg Config.shared heq⟩
  have henter : M.StepsAbove a.depth ⟨f :: below, g⟩ ⟨callee :: f' :: below, g'⟩ := by
    refine .single ⟨.enter hm ?_, ?_⟩
    · rw [hlen]
      exact Nat.lt_of_not_le hd
    · simp only [List.length_cons]
      omega
  have hcallee : M.StepsAbove a.depth ⟨callee :: f' :: below, g'⟩ ⟨f₂ :: f' :: below, g₂⟩ := by
    refine Relation.ReflTransGen.mono (fun _ _ hstep => ⟨hstep.1, ?_⟩) _ _ hsteps
    have hlt := hstep.2
    rw [hdeep] at hlt
    omega
  refine ⟨below, ⟨hlen, hcomes⟩, ((habove.trans henter).trans hcallee).tail ⟨.leave hleave, ?_⟩⟩
  simp only [List.length_cons]
  omega

/-- The activations of a correct run are verified. -/
theorem Correct.verifies {R : ρ → γ → Prop} (h : M.Correct R T c₁) :
    M.Verifies (M.ofRun c₁) T (M.During c₁) where
  entry := fun ⟨below, hcomes⟩ => ⟨below, hcomes, .refl⟩
  move := by
    intro a f g hduring
    obtain ⟨below, hlen, hsteps⟩ := hduring.steps
    cases hm : M.move f g with
    | stay f' g' =>
      obtain ⟨below, hcomes, habove⟩ := hduring
      refine ⟨below, hcomes, habove.tail ⟨.stay hm, ?_⟩⟩
      simp only [List.length_cons, hcomes.1]
      exact Nat.lt_succ_self _
    | enter f' callee g' =>
      rw [Respects]
      split
      case isTrue hd =>
        rw [← hlen] at hd
        rcases h _ _ _ hsteps (.overflow hm hd) with ⟨hnil, -⟩ | ⟨-, hT⟩
        · cases hnil
        · exact hT
      case isFalse hd =>
        refine ⟨⟨f' :: below, ?_, hsteps.tail (.enter hm ?_)⟩, fun r g'' hpost => ?_⟩
        · rw [List.length_cons, hlen]
        · rw [hlen]
          exact Nat.lt_of_not_le hd
        · exact hduring.resume hm hd hpost
    | leave r g' => exact ⟨f, g, hduring, hm⟩
    | stop t f' g' =>
      rcases h _ _ _ hsteps (.stop hm) with ⟨hnil, -⟩ | ⟨-, hT⟩
      · cases hnil
      · exact hT

theorem Correct.post {R : ρ → γ → Prop} {r : ρ} (h : M.Correct R T c₁)
    (hfinish : Function.Injective M.finish) (hbottom : a.depth = 0)
    (hpost : (M.ofRun c₁).post a r g) : R r g := by
  obtain ⟨f, g', hduring, hm⟩ := hpost
  obtain ⟨below, hlen, hsteps⟩ := hduring.steps
  obtain rfl : below = [] := List.length_eq_zero_iff.mp (hlen.trans hbottom)
  rcases h _ _ _ hsteps (.leave hm) with ⟨-, r', hr, hR⟩ | ⟨hne, -⟩
  · rwa [hfinish hr]
  · exact absurd rfl hne

end Completeness

/-- A run is correct if and only if a contract of its activations is verified that requires no more
and promises no less of the first one. -/
theorem correct_iff {R : ρ → γ → Prop} (hfinish : Function.Injective M.finish) :
    M.Correct R T ⟨[f₁], g₁⟩ ↔ ∃ C Inv, M.Verifies C T Inv ∧ C.pre ⟨0, f₁, g₁⟩ ∧
      ∀ r g, C.post ⟨0, f₁, g₁⟩ r g → R r g := by
  constructor
  · intro h
    refine ⟨_, _, h.verifies, ⟨[], rfl, .refl⟩, fun r g hpost => ?_⟩
    exact h.post hfinish rfl hpost
  · rintro ⟨C, Inv, hver, hpre, hpost⟩ c t c' hsteps hend
    refine (hver.correct hpre c t c' hsteps hend).imp_left ?_
    exact fun ⟨hnil, r, ht, hr⟩ => ⟨hnil, r, ht, hpost r _ hr⟩

/-! ## Lowering -/

/-- A run is correct if and only if it always has a meaning and the lowered run is correct. -/
theorem Lowers.correct_iff {φ' : Type} {M : Machine φ γ ρ (Option τ)} {N : Machine φ' γ ρ τ}
    {lower : φ → φ'} {P : φ → Prop} (h : M.Lowers N lower P) {R : ρ → γ → Prop}
    {T' : Option τ → Prop} (hsome : ∀ t, T' (some t) ↔ T t) (hnone : ¬ T' none)
    (hc : ∀ f ∈ c.stack, P f) :
    M.Correct R T' c ↔
      (∀ c₁ c₂, M.Steps c c₁ → ¬ M.Ends c₁ none c₂) ∧ N.Correct R T (c.lower lower) := by
  constructor
  · intro hM
    have hdefined : ∀ c₁ c₂, M.Steps c c₁ → ¬ M.Ends c₁ none c₂ := by
      intro c₁ c₂ hsteps hend
      rcases hM c₁ none c₂ hsteps hend with ⟨-, r, hr, -⟩ | ⟨-, hT⟩
      · cases hr.trans (h.finish r)
      · exact hnone hT
    refine ⟨hdefined, fun d t d' hsteps hend => ?_⟩
    rcases h.steps_of_lower hc hsteps with ⟨c₁, hc₁, rfl⟩ | ⟨c₁, c₂, hc₁, hwrong⟩
    · rcases h.ends_of_lower (h.keeps.steps hc₁ hc) hend with ⟨c₂, hend', rfl⟩ | ⟨c₂, hwrong⟩
      · rcases hM c₁ (some t) c₂ hc₁ hend' with ⟨hnil, r, hr, hR⟩ | ⟨hne, hT⟩
        · refine .inl ⟨List.map_eq_nil_iff.mpr hnil, r, ?_, hR⟩
          exact Option.some.inj (hr.trans (h.finish r))
        · exact .inr ⟨fun hnil => hne (List.map_eq_nil_iff.mp hnil), (hsome t).mp hT⟩
      · exact absurd hwrong (hdefined _ _ hc₁)
    · exact absurd hwrong (hdefined _ _ hc₁)
  · rintro ⟨hdefined, hN⟩ c₁ t c₂ hsteps hend
    cases t with
    | none => exact absurd hend (hdefined _ _ hsteps)
    | some t =>
      have hend' := h.ends (h.keeps.steps hsteps hc) hend
      rcases hN _ t _ (h.steps hc hsteps) hend' with ⟨hnil, r, rfl, hR⟩ | ⟨hne, hT⟩
      · exact .inl ⟨List.map_eq_nil_iff.mp hnil, r, (h.finish r).symm, hR⟩
      · exact .inr ⟨fun hnil => hne (List.map_eq_nil_iff.mpr hnil), (hsome t).mpr hT⟩

end Machine

end Fasm.Pushdown
