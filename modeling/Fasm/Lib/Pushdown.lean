import Mathlib.Logic.Relation

/-!
# Pushdown machines

A machine whose state is a stack of frames and something that all frames share.
A move looks at the top frame and the shared part only; it changes them, enters a
new frame, leaves the top frame with a value for the frame below, or ends the run.

What follows from this shape alone: the depth of the stack is bounded, a property
of frames that moves keep holds of the whole stack, a call comes back to the frame
that made it, and a frame that would only pass its callee's value on may as well be
replaced by the callee.
-/

namespace Fasm.Pushdown

/-- What the top frame does. -/
inductive Move (φ γ ρ τ : Type) where
  | stay (f : φ) (g : γ)
  | enter (f callee : φ) (g : γ)
  | leave (r : ρ) (g : γ)
  | stop (t : τ) (f : φ) (g : γ)

/-- A pushdown machine with frames `φ`, shared part `γ`, returned values `ρ` and
results `τ`. -/
structure Machine (φ γ ρ τ : Type) where
  move : φ → γ → Move φ γ ρ τ
  /-- a frame after the frame above it has returned a value -/
  resume : φ → ρ → φ
  /-- the greatest depth of the stack -/
  limit : Nat
  /-- the result of a run that would exceed the limit -/
  overflow : τ
  /-- the result of a run whose last frame returns a value -/
  finish : ρ → τ

/-- A state of a pushdown machine. -/
@[ext] structure Config (φ γ : Type) where
  stack : List φ
  shared : γ

variable {φ γ ρ τ : Type}

/-! ## Frames by height -/

/-- The frame at height `d`, counted from the bottom of the stack. -/
def frameAt (s : List φ) (d : Nat) : Option φ := s.reverse[d]?

theorem frameAt_cons (f : φ) (s : List φ) (d : Nat) :
    frameAt (f :: s) d = if d = s.length then some f else frameAt s d := by
  rw [frameAt, List.reverse_cons, List.getElem?_append, List.length_reverse]
  rcases Nat.lt_trichotomy d s.length with hd | rfl | hd
  · rw [if_pos hd, if_neg (Nat.ne_of_lt hd), frameAt]
  · rw [if_neg (Nat.lt_irrefl _), if_pos rfl, Nat.sub_self, List.getElem?_cons_zero]
  · rw [if_neg (Nat.not_lt_of_lt hd), if_neg (Nat.ne_of_gt hd), frameAt,
      List.getElem?_eq_none (by simp only [List.length_singleton]; omega),
      List.getElem?_eq_none (by simp only [List.length_reverse]; omega)]

@[simp] theorem frameAt_length (f : φ) (s : List φ) : frameAt (f :: s) s.length = some f := by
  rw [frameAt_cons, if_pos rfl]

theorem frameAt_lt {s : List φ} {d : Nat} {f : φ} (h : frameAt s d = some f) : d < s.length := by
  rw [← List.length_reverse]
  exact (List.getElem?_eq_some_iff.mp h).1

/-- The frame at height `d` has the property `Q`. -/
def Config.At (c : Config φ γ) (d : Nat) (Q : φ → Prop) : Prop :=
  ∃ f, frameAt c.stack d = some f ∧ Q f

/-- The frame at height `d` is on top and is about to make the move `A`. -/
def Config.TopAt (c : Config φ γ) (d : Nat) (A : φ → γ → Prop) : Prop :=
  ∃ f below, c.stack = f :: below ∧ below.length = d ∧ A f c.shared

namespace Config.At

variable {A : φ → γ → Prop} {Q : φ → Prop}

/-- Where the property holds with another frame on top, it holds of the frame there before, or
the top frame has brought it about. -/
theorem of_top {f f' : φ} {g g' : γ} {below : List φ} {d : Nat}
    (h : Config.At ⟨f' :: below, g'⟩ d Q) (hf : Q f' → A f g ∨ Q f) :
    Config.TopAt ⟨f :: below, g⟩ d A ∨ Config.At ⟨f :: below, g⟩ d Q := by
  obtain ⟨x, hat, hx⟩ := h
  rw [frameAt_cons] at hat
  split at hat
  case isTrue hd =>
    cases hat
    refine (hf hx).imp (fun hA => ⟨f, below, rfl, hd.symm, hA⟩) fun hQ => ⟨f, ?_, hQ⟩
    rw [hd, frameAt_length]
  case isFalse hd => exact .inr ⟨x, by rw [frameAt_cons, if_neg hd, hat], hx⟩

/-- A frame on top that does not have the property is not the one that has it. -/
theorem tail {f : φ} {s : List φ} {g : γ} {d : Nat} (h : Config.At ⟨f :: s, g⟩ d Q)
    (hf : ¬ Q f) : Config.At ⟨s, g⟩ d Q := by
  obtain ⟨x, hat, hx⟩ := h
  rw [frameAt_cons] at hat
  split at hat
  case isTrue => cases hat; exact absurd hx hf
  case isFalse => exact ⟨x, hat, hx⟩

/-- What holds of a frame still does with a frame on top. -/
theorem cons {s : List φ} {g g' : γ} {d : Nat} (h : Config.At ⟨s, g⟩ d Q) (f : φ) :
    Config.At ⟨f :: s, g'⟩ d Q := by
  obtain ⟨x, hat, hx⟩ := h
  have hlt : d < s.length := frameAt_lt hat
  exact ⟨x, by rw [frameAt_cons, if_neg (Nat.ne_of_lt hlt), hat], hx⟩

end Config.At

namespace Machine

variable (M : Machine φ γ ρ τ)

/-- One step of a run. -/
inductive Step : Config φ γ → Config φ γ → Prop
  | stay {f g f' g' below} (h : M.move f g = .stay f' g') :
    Step ⟨f :: below, g⟩ ⟨f' :: below, g'⟩
  | enter {f g f' callee g' below} (h : M.move f g = .enter f' callee g')
    (hd : below.length + 1 < M.limit) :
    Step ⟨f :: below, g⟩ ⟨callee :: f' :: below, g'⟩
  | leave {f g r g' caller below} (h : M.move f g = .leave r g') :
    Step ⟨f :: caller :: below, g⟩ ⟨M.resume caller r :: below, g'⟩

/-- The step that ends a run with a result. -/
inductive Ends : Config φ γ → τ → Config φ γ → Prop
  | overflow {f g f' callee g' below} (h : M.move f g = .enter f' callee g')
    (hd : M.limit ≤ below.length + 1) :
    Ends ⟨f :: below, g⟩ M.overflow ⟨f' :: below, g'⟩
  | leave {f g r g'} (h : M.move f g = .leave r g') :
    Ends ⟨[f], g⟩ (M.finish r) ⟨[], g'⟩
  | stop {f g t f' g' below} (h : M.move f g = .stop t f' g') :
    Ends ⟨f :: below, g⟩ t ⟨f' :: below, g'⟩

/-- Any number of steps. -/
abbrev Steps : Config φ γ → Config φ γ → Prop := Relation.ReflTransGen M.Step

/-- Any number of steps during which the stack is deeper than `d`. -/
abbrev StepsAbove (d : Nat) : Config φ γ → Config φ γ → Prop :=
  Relation.ReflTransGen fun c c' => M.Step c c' ∧ d < c'.stack.length

/-- What one turn comes to. -/
inductive Turn (φ γ τ : Type) where
  | next (c : Config φ γ)
  | done (t : τ) (c : Config φ γ)

/-- The effect of a move above the frames `below`. -/
def apply (below : List φ) : Move φ γ ρ τ → Turn φ γ τ
  | .stay f g => .next ⟨f :: below, g⟩
  | .enter f callee g =>
    if M.limit ≤ below.length + 1 then .done M.overflow ⟨f :: below, g⟩
    else .next ⟨callee :: f :: below, g⟩
  | .leave r g =>
    match below with
    | [] => .done (M.finish r) ⟨[], g⟩
    | caller :: rest => .next ⟨M.resume caller r :: rest, g⟩
  | .stop t f g => .done t ⟨f :: below, g⟩

theorem apply_enter {below : List φ} (hd : below.length + 1 < M.limit) (f callee : φ) (g : γ) :
    M.apply below (.enter f callee g) = .next ⟨callee :: f :: below, g⟩ :=
  if_neg (Nat.not_le_of_lt hd)

theorem apply_overflow {below : List φ} (hd : M.limit ≤ below.length + 1) (f callee : φ) (g : γ) :
    M.apply below (.enter f callee g) = .done M.overflow ⟨f :: below, g⟩ := if_pos hd

/-- One turn, computed. -/
def turn (c : Config φ γ) : Option (Turn φ γ τ) :=
  match c.stack with
  | [] => none
  | f :: below => some (M.apply below (M.move f c.shared))

variable {M}

theorem step_iff {c c' : Config φ γ} : M.Step c c' ↔ M.turn c = some (.next c') := by
  constructor
  · intro h
    cases h with
    | stay h => simp only [turn, h, apply]
    | enter h hd => simp only [turn, h, apply_enter M hd]
    | leave h => simp only [turn, h, apply]
  · intro h
    obtain ⟨stack, g⟩ := c
    cases stack with
    | nil => cases h
    | cons f below =>
      simp only [turn, Option.some.injEq] at h
      cases hm : M.move f g with
      | stay => rw [hm] at h; cases h; exact .stay hm
      | enter =>
        simp only [hm, apply] at h
        split at h
        case isTrue => cases h
        case isFalse hd => cases h; exact .enter hm (Nat.lt_of_not_le hd)
      | leave =>
        rw [hm] at h
        cases below with
        | nil => cases h
        | cons => cases h; exact .leave hm
      | stop => rw [hm] at h; cases h

theorem ends_iff {c c' : Config φ γ} {t : τ} :
    M.Ends c t c' ↔ M.turn c = some (.done t c') := by
  constructor
  · intro h
    cases h with
    | overflow h hd => simp only [turn, h, apply_overflow M hd]
    | leave h => simp only [turn, h, apply]
    | stop h => simp only [turn, h, apply]
  · intro h
    obtain ⟨stack, g⟩ := c
    cases stack with
    | nil => cases h
    | cons f below =>
      simp only [turn, Option.some.injEq] at h
      cases hm : M.move f g with
      | stay => rw [hm] at h; cases h
      | enter =>
        simp only [hm, apply] at h
        split at h
        case isTrue hd => cases h; exact .overflow hm hd
        case isFalse => cases h
      | leave =>
        rw [hm] at h
        cases below with
        | nil => cases h; exact .leave hm
        | cons => cases h
      | stop => rw [hm] at h; cases h; exact .stop hm

theorem Step.stack_ne_nil {c c' : Config φ γ} (h : M.Step c c') : c'.stack ≠ [] := by
  cases h <;> exact List.cons_ne_nil _ _

theorem Step.source_ne_nil {c c' : Config φ γ} (h : M.Step c c') : c.stack ≠ [] := by
  cases h <;> exact List.cons_ne_nil _ _

theorem Ends.stack_ne_nil {c c' : Config φ γ} {t : τ} (h : M.Ends c t c') : c.stack ≠ [] := by
  cases h <;> exact List.cons_ne_nil _ _

/-! ## Depth and frames -/

/-- A step leaves a stack that is not empty and within the limit. -/
theorem Step.depth {c c' : Config φ γ} (h : M.Step c c') (hc : c.stack.length ≤ M.limit) :
    0 < c'.stack.length ∧ c'.stack.length ≤ M.limit := by
  cases h with
  | stay => simpa using hc
  | enter _ hd => simp only [List.length_cons]; omega
  | leave => simp only [List.length_cons] at hc ⊢; omega

/-- Moves keep a property of frames: it passes from the top frame to what takes its place
and to its callee, and a value returned to a frame does not break it. -/
structure Keeps (M : Machine φ γ ρ τ) (P : φ → Prop) : Prop where
  stay : ∀ {f g f' g'}, M.move f g = .stay f' g' → P f → P f'
  enter : ∀ {f g f' callee g'}, M.move f g = .enter f' callee g' → P f → P f' ∧ P callee
  resume : ∀ {f} (r : ρ), P f → P (M.resume f r)

theorem Keeps.step {P : φ → Prop} (hP : M.Keeps P) {c c' : Config φ γ} (h : M.Step c c')
    (hc : ∀ f ∈ c.stack, P f) : ∀ f ∈ c'.stack, P f := by
  cases h with
  | stay h =>
    simp only [List.forall_mem_cons] at hc ⊢
    exact ⟨hP.stay h hc.1, hc.2⟩
  | enter h _ =>
    simp only [List.forall_mem_cons] at hc ⊢
    obtain ⟨hf, hcallee⟩ := hP.enter h hc.1
    exact ⟨hcallee, hf, hc.2⟩
  | leave h =>
    simp only [List.forall_mem_cons] at hc ⊢
    exact ⟨hP.resume _ hc.2.1, hc.2.2⟩

theorem Keeps.steps {P : φ → Prop} (hP : M.Keeps P) {c c' : Config φ γ} (h : M.Steps c c')
    (hc : ∀ f ∈ c.stack, P f) : ∀ f ∈ c'.stack, P f := by
  induction h with
  | refl => exact hc
  | tail _ hstep ih => exact hP.step hstep ih

/-! ## Where a property of a frame comes from -/

/-- A frame gets the property `Q` from a move `A` of its own and from nothing else. -/
structure Origin (M : Machine φ γ ρ τ) (A : φ → γ → Prop) (Q : φ → Prop) : Prop where
  stay : ∀ {f g f' g'}, M.move f g = .stay f' g' → Q f' → A f g ∨ Q f
  enter : ∀ {f g f' callee g'}, M.move f g = .enter f' callee g' → (Q f' → Q f) ∧ ¬ Q callee
  resume : ∀ {f r}, Q (M.resume f r) → Q f
  stop : ∀ {f g t f' g'}, M.move f g = .stop t f' g' → Q f' → A f g ∨ Q f

section Origin

variable {A : φ → γ → Prop} {Q : φ → Prop}

/-- Where a frame has such a property after a step, it had it before, or it was on top and made
the move. -/
theorem Origin.step (hQ : M.Origin A Q) {c c' : Config φ γ} (h : M.Step c c') {d : Nat}
    (hat : c'.At d Q) : c.TopAt d A ∨ c.At d Q := by
  cases h with
  | stay hm => exact hat.of_top (hQ.stay hm)
  | enter hm _ => exact (hat.tail (hQ.enter hm).2).of_top fun hf => .inr ((hQ.enter hm).1 hf)
  | @leave f g r g' caller below hm =>
    refine .inr (Config.At.cons (g := g') ?_ f)
    exact (hat.of_top (A := fun _ _ => False) fun hf => .inr (hQ.resume hf)).resolve_left
      fun ⟨_, _, _, _, hF⟩ => hF

/-- The same at the end of a run. -/
theorem Origin.ends (hQ : M.Origin A Q) {c c' : Config φ γ} {t : τ} (h : M.Ends c t c') {d : Nat}
    (hat : c'.At d Q) : c.TopAt d A ∨ c.At d Q := by
  cases h with
  | overflow hm _ => exact hat.of_top fun hf => .inr ((hQ.enter hm).1 hf)
  | leave _ =>
    obtain ⟨_, hat, -⟩ := hat
    exact absurd (frameAt_lt hat) (Nat.not_lt_zero _)
  | stop hm => exact hat.of_top (hQ.stop hm)

end Origin

/-! ## Calls and returns -/

/-- A step changes the stack at its top only. -/
theorem Step.suffix {c c' : Config φ γ} (h : M.Step c c') {below : List φ}
    (hc : below <:+ c.stack) (hd : below.length < c.stack.length)
    (hd' : below.length < c'.stack.length) : below <:+ c'.stack := by
  -- what is below the top frame before the step
  have hbelow : ∀ {f : φ} {s : List φ}, below <:+ f :: s → below.length < (f :: s).length →
      below <:+ s := fun hsuf hlen => by
    rcases List.suffix_cons_iff.mp hsuf with rfl | hsuf
    · exact absurd hlen (Nat.lt_irrefl _)
    · exact hsuf
  cases h with
  | stay => exact (hbelow hc hd).trans (List.suffix_cons _ _)
  | enter =>
    exact (hbelow hc hd).trans ((List.suffix_cons _ _).trans (List.suffix_cons _ _))
  | @leave f g r g' caller s h =>
    -- the caller is above `below` still, since the stack stays deeper
    have hlen : below.length < (caller :: s).length := hd'
    exact (hbelow (hbelow hc hd) hlen).trans (List.suffix_cons _ _)

/-- While the stack is deeper than it was, what was there stays. -/
theorem StepsAbove.suffix (below : List φ) {c c' : Config φ γ}
    (h : M.StepsAbove below.length c c') (hc : below <:+ c.stack)
    (hd : below.length < c.stack.length) :
    below <:+ c'.stack ∧ below.length < c'.stack.length := by
  induction h with
  | refl => exact ⟨hc, hd⟩
  | tail _ hstep ih => exact ⟨hstep.1.suffix ih.1 ih.2 hstep.2, hstep.2⟩

/-- Calls balance: when the stack is as deep again as below a callee, the callee's last
frame has left with a value, and the frame below it has been resumed with that value. -/
theorem StepsAbove.return {caller : φ} {below : List φ} {c c' c'' : Config φ γ}
    (h : M.StepsAbove (below.length + 1) c c') (hc : (caller :: below) <:+ c.stack)
    (hd : below.length + 1 < c.stack.length) (hret : M.Step c' c'')
    (hd'' : c''.stack.length = below.length + 1) :
    ∃ f r, c'.stack = f :: caller :: below ∧ M.move f c'.shared = .leave r c''.shared ∧
      c''.stack = M.resume caller r :: below := by
  obtain ⟨hsuf, hlen⟩ := StepsAbove.suffix (caller :: below) h hc hd
  cases hret with
  | stay => exact absurd hlen (by simp only [List.length_cons] at hd'' ⊢; omega)
  | enter => exact absurd hlen (by simp only [List.length_cons] at hd'' ⊢; omega)
  | @leave f g r g' caller' s hmove =>
    have heq : caller :: below = caller' :: s := by
      refine List.IsSuffix.eq_of_length ?_ (by simp only [List.length_cons] at hd'' ⊢; omega)
      rcases List.suffix_cons_iff.mp hsuf with heq | hsuf
      · rw [heq] at hlen
        exact absurd hlen (Nat.lt_irrefl _)
      · exact hsuf
    cases heq
    exact ⟨f, r, rfl, hmove, rfl⟩

/-! ## Tail calls

A frame that is about to enter a callee and would afterwards only pass the callee's
value on can be replaced by the callee: the machine that replaces it reaches every
result of the machine that enters, except for an overflow, which it may avoid. -/

section TailCall

variable (M : Machine φ γ ρ τ) (push : φ → γ → Move φ γ ρ τ)

/-- The machine with other moves. -/
abbrev withMove : Machine φ γ ρ τ := { M with move := push }

/-- Resumed with any value, the frame leaves with that value at once. -/
def Passes (k : φ) : Prop := ∀ r g, push (M.resume k r) g = .leave r g

/-- On the top frame `f` the machine moves as `push` does, or replaces by the callee a frame
that `push` would leave behind only to pass a value on. -/
def Replaces (f : φ) (g : γ) : Prop :=
  M.move f g = push f g ∨
    ∃ k callee g', push f g = .enter k callee g' ∧ M.Passes push k ∧ M.move f g = .stay callee g'

/-- The second stack is the first one with passing frames put in. -/
inductive Padded : List φ → List φ → Prop
  | nil : Padded [] []
  | cons (f : φ) {s s'} : Padded s s' → Padded (f :: s) (f :: s')
  | pass {k : φ} {s s'} : M.Passes push k → Padded s s' → Padded s (k :: s')

/-- States in lock step: the same top frame, or the second machine is still passing a value
on with which the first one's top frame is about to leave. -/
inductive InStep : Config φ γ → Config φ γ → Prop
  | top {f s s' g} : M.Padded push s s' → InStep ⟨f :: s, g⟩ ⟨f :: s', g⟩
  | passing {f k s s' r g g'} : M.Passes push k → M.Padded push s s' →
    M.move f g = .leave r g' → InStep ⟨f :: s, g⟩ ⟨M.resume k r :: s', g'⟩

variable {M push}

theorem Padded.refl : ∀ s : List φ, M.Padded push s s
  | [] => .nil
  | f :: s => .cons f (refl s)

theorem Padded.length_le {s s' : List φ} (h : M.Padded push s s') : s.length ≤ s'.length := by
  induction h with
  | nil => exact Nat.le_refl _
  | cons f _ ih => exact Nat.succ_le_succ ih
  | pass _ _ ih => exact Nat.le_succ_of_le ih

/-- Both machines leave with `r`: the next frame goes on in both, or only the second machine
moves and passes `r` on. -/
theorem InStep.leave {f s c s' r g g'} (hpad : M.Padded push s (c :: s'))
    (hmove : M.move f g = .leave r g') :
    ∃ c₁, M.Steps ⟨f :: s, g⟩ c₁ ∧ M.InStep push c₁ ⟨M.resume c r :: s', g'⟩ := by
  cases hpad with
  | cons _ hpad => exact ⟨_, .single (.leave hmove), .top hpad⟩
  | pass hk hpad => exact ⟨_, .refl, .passing hk hpad hmove⟩

/-- One step of the entering machine is none or one of the replacing machine. -/
theorem InStep.step {c c' d' : Config φ γ} (h : M.InStep push c c')
    (hrep : ∀ f s, c.stack = f :: s → M.Replaces push f c.shared)
    (hstep : (M.withMove push).Step c' d') : ∃ d, M.Steps c d ∧ M.InStep push d d' := by
  cases h with
  | @top f s s' g hpad =>
    rcases hrep f s rfl with hsame | ⟨k, callee, g', henter, hk, hstay⟩
    · cases hstep with
      | stay hm => exact ⟨_, .single (.stay (hsame.trans hm)), .top hpad⟩
      | enter hm hd =>
        have hd' : s.length + 1 < M.limit := Nat.lt_of_le_of_lt (Nat.succ_le_succ hpad.length_le) hd
        exact ⟨_, .single (.enter (hsame.trans hm) hd'), .top (.cons _ hpad)⟩
      | leave hm => exact InStep.leave hpad (hsame.trans hm)
    · cases hstep with
      | stay hm => exact nomatch henter.symm.trans hm
      | leave hm => exact nomatch henter.symm.trans hm
      | enter hm hd =>
        cases henter.symm.trans hm
        exact ⟨_, .single (.stay hstay), .top (.pass hk hpad)⟩
  | passing hk hpad hmove =>
    cases hstep with
    | stay hm => exact nomatch (hk _ _).symm.trans hm
    | enter hm _ => exact nomatch (hk _ _).symm.trans hm
    | leave hm =>
      cases (hk _ _).symm.trans hm
      exact InStep.leave hpad hmove

/-- Where the entering machine ends, other than by an overflow, the replacing machine ends with
the same result and the same shared part. -/
theorem InStep.ends {c c' d' : Config φ γ} {t : τ} (h : M.InStep push c c')
    (hrep : ∀ f s, c.stack = f :: s → M.Replaces push f c.shared)
    (hend : (M.withMove push).Ends c' t d') (ht : t ≠ M.overflow) :
    ∃ d, M.Ends c t d ∧ d.shared = d'.shared := by
  cases h with
  | @top f s s' g hpad =>
    rcases hrep f s rfl with hsame | ⟨k, callee, g', henter, -, -⟩
    · cases hend with
      | overflow => exact absurd rfl ht
      | leave hm => cases hpad; exact ⟨_, .leave (hsame.trans hm), rfl⟩
      | stop hm => exact ⟨_, .stop (hsame.trans hm), rfl⟩
    · cases hend with
      | overflow => exact absurd rfl ht
      | leave hm => exact nomatch henter.symm.trans hm
      | stop hm => exact nomatch henter.symm.trans hm
  | passing hk hpad hmove =>
    cases hend with
    | overflow => exact absurd rfl ht
    | leave hm =>
      cases (hk _ _).symm.trans hm
      cases hpad
      exact ⟨_, .leave hmove, rfl⟩
    | stop hm => exact nomatch (hk _ _).symm.trans hm

/-- Replacing frames that only pass a value on does not change the result of a run. -/
theorem InStep.run {c c' d' e' : Config φ γ} {t : τ} (h : M.InStep push c c')
    (hrep : ∀ d f s, M.Steps c d → d.stack = f :: s → M.Replaces push f d.shared)
    (hsteps : (M.withMove push).Steps c' d') (hend : (M.withMove push).Ends d' t e')
    (ht : t ≠ M.overflow) :
    ∃ d e, M.Steps c d ∧ M.Ends d t e ∧ e.shared = e'.shared := by
  suffices hrun : ∃ d, M.Steps c d ∧ M.InStep push d d' by
    obtain ⟨d, hd, hin⟩ := hrun
    obtain ⟨e, he, hshared⟩ := hin.ends (fun f s hs => hrep d f s hd hs) hend ht
    exact ⟨d, e, hd, he, hshared⟩
  clear hend
  induction hsteps with
  | refl => exact ⟨c, .refl, h⟩
  | tail _ hstep ih =>
    obtain ⟨d, hd, hin⟩ := ih
    obtain ⟨d₁, hd₁, hin₁⟩ := hin.step (fun f s hs => hrep d f s hd hs) hstep
    exact ⟨d₁, hd.trans hd₁, hin₁⟩

end TailCall

end Machine

end Fasm.Pushdown
