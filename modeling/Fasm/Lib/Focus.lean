/-!
# Computations that work on part of the state

A stateful computation with failure is *focused* on a part of its state when it
runs on that part alone: put into any context, it does the same to the part and
nothing to the context.  This is the frame rule, for a state that is plugged
together from a part `ν` and a context `κ`.

Two more facts are carried along, since every use wants all three: the value of
some function of the part that the computation keeps, and a bound on the errors
it stops with.  Keeping is stated by a function `keep : ν → τ` rather than by a
relation, so that composition needs no transitivity argument.

The last section is about what a computation can find out: it *respects* a view of
the state if states that look alike lead to results that look alike.
-/

namespace Fasm

/-! ## Errors of pure computations -/

section Raises

variable {ε α β : Type} {E : ε → Prop}

/-- Every error of `x` satisfies `E`. -/
def Raises (E : ε → Prop) (x : Except ε α) : Prop := ∀ e, x = .error e → E e

namespace Raises

@[simp] theorem ok (a : α) : Raises E (.ok a) := fun _ h => nomatch h

@[simp] theorem error {e : ε} : Raises E (.error e : Except ε α) ↔ E e :=
  ⟨fun h => h e rfl, fun h _ he => by cases he; exact h⟩

@[simp] theorem throw {e : ε} : Raises E (throw e : Except ε α) ↔ E e := error

@[simp] theorem pure (a : α) : Raises E (pure a) := ok a

theorem bind {x : Except ε α} {f : α → Except ε β} (hx : Raises E x)
    (hf : ∀ a, Raises E (f a)) : Raises E (x >>= f) := by
  cases x with
  | ok a => exact hf a
  | error e => exact error.mpr (error.mp hx)

@[simp] theorem map {x : Except ε α} {f : α → β} : Raises E (x.map f) ↔ Raises E x := by
  cases x with
  | ok a => exact iff_of_true (ok _) (ok _)
  | error e => exact error.trans error.symm

theorem mono {E' : ε → Prop} (hE : ∀ e, E e → E' e) {x : Except ε α} (hx : Raises E x) :
    Raises E' x := fun e h => hE e (hx e h)

end Raises

end Raises

/-- A sequence that succeeds went through an intermediate value. -/
theorem bind_eq_ok {ε α β : Type} {x : Except ε α} {f : α → Except ε β} {b : β}
    (h : (x >>= f) = .ok b) : ∃ a, x = .ok a ∧ f a = .ok b := by
  cases x with
  | ok a => exact ⟨a, rfl, h⟩
  | error e => cases h

theorem map_eq_ok {ε α β : Type} {x : Except ε α} {f : α → β} {b : β} (h : x.map f = .ok b) :
    ∃ a, x = .ok a ∧ f a = b := by
  cases x with
  | ok a => exact ⟨a, rfl, Except.ok.inj h⟩
  | error e => cases h

/-! ## Sequences of stateful computations -/

section Sequence

variable {ε σ α β : Type} {m : EStateM ε σ α} {f : α → EStateM ε σ β} {s s' : σ}

theorem bind_run_ok {a : α} (h : m s = .ok a s') : (m >>= f) s = f a s' := by
  change EStateM.bind m f s = _
  simp only [EStateM.bind, h]

theorem bind_run_error {e : ε} (h : m s = .error e s') : (m >>= f) s = .error e s' := by
  change EStateM.bind m f s = _
  simp only [EStateM.bind, h]

end Sequence

/-! ## Values of stateful computations -/

section Returns

variable {ε σ α β : Type} {P : β → Prop}

/-- Every value that `m` returns satisfies `P`. -/
def Returns (P : α → Prop) (m : EStateM ε σ α) : Prop := ∀ s a s', m s = .ok a s' → P a

namespace Returns

theorem pure {b : β} (hb : P b) : Returns P (pure b : EStateM ε σ β) := fun _ _ _ h => by
  cases h
  exact hb

theorem throw {e : ε} : Returns P (throw e : EStateM ε σ β) := nofun

theorem bind {m : EStateM ε σ α} {f : α → EStateM ε σ β} (hf : ∀ a, Returns P (f a)) :
    Returns P (m >>= f) := by
  intro s b s' h
  change EStateM.bind m f s = _ at h
  unfold EStateM.bind at h
  split at h
  · exact hf _ _ _ _ h
  · cases h

end Returns

end Returns

/-! ## Focused computations -/

section Focused

variable {ε σ ν κ τ α β : Type} {plug : ν → κ → σ} {keep : ν → τ} {E : ε → Prop}

/-- The state a result leaves behind, through a function. -/
def mapState {σ' : Type} (f : σ → σ') : EStateM.Result ε σ α → EStateM.Result ε σ' α
  | .ok a s => .ok a (f s)
  | .error e s => .error e (f s)

/-- The state a result leaves behind. -/
def stateOf : EStateM.Result ε σ α → σ
  | .ok _ s => s
  | .error _ s => s

/-- The error a result carries satisfies `E`. -/
def RaisesIn (E : ε → Prop) : EStateM.Result ε σ α → Prop
  | .ok _ _ => True
  | .error e _ => E e

/-- `m` runs on the part of the state that `plug` puts into a context: on a part `v` it
has one result `r`, which `plug` puts back into every context alike. -/
def Focused (plug : ν → κ → σ) (keep : ν → τ) (E : ε → Prop) (m : EStateM ε σ α) : Prop :=
  ∀ v, ∃ r : EStateM.Result ε ν α, keep (stateOf r) = keep v ∧ RaisesIn E r ∧
    ∀ c, m (plug v c) = mapState (plug · c) r

namespace Focused

theorem pure (a : α) : Focused plug keep E (pure a : EStateM ε σ α) := fun v =>
  ⟨.ok a v, rfl, trivial, fun _ => rfl⟩

theorem throw {e : ε} (he : E e) : Focused plug keep E (throw e : EStateM ε σ α) := fun v =>
  ⟨.error e v, rfl, he, fun _ => rfl⟩

theorem bind {m : EStateM ε σ α} {f : α → EStateM ε σ β} (hm : Focused plug keep E m)
    (hf : ∀ a, Focused plug keep E (f a)) : Focused plug keep E (m >>= f) := by
  intro v
  obtain ⟨r, hk, hE, hr⟩ := hm v
  cases r with
  | ok a w =>
    obtain ⟨r', hk', hE', hr'⟩ := hf a w
    refine ⟨r', hk'.trans hk, hE', fun c => ?_⟩
    have hrun : m (plug v c) = .ok a (plug w c) := hr c
    show EStateM.bind m f (plug v c) = _
    simp only [EStateM.bind, hrun]
    exact hr' c
  | error e w =>
    refine ⟨.error e w, hk, hE, fun c => ?_⟩
    have hrun : m (plug v c) = .error e (plug w c) := hr c
    show EStateM.bind m f (plug v c) = _
    simp only [EStateM.bind, hrun, mapState]

/-- A computation with more errors allowed. -/
theorem mono {E' : ε → Prop} (hE : ∀ e, E e → E' e) {m : EStateM ε σ α}
    (hm : Focused plug keep E m) : Focused plug keep E' m := by
  intro v
  obtain ⟨r, hk, hr, h⟩ := hm v
  refine ⟨r, hk, ?_, h⟩
  cases r with
  | ok a w => trivial
  | error e w => exact hE e hr

/-- A computation that keeps less. -/
theorem keep_comp {τ' : Type} (g : τ → τ') {m : EStateM ε σ α}
    (hm : Focused plug keep E m) : Focused plug (g ∘ keep) E m := by
  intro v
  obtain ⟨r, hk, hr, h⟩ := hm v
  exact ⟨r, congrArg g hk, hr, h⟩

end Focused

end Focused

/-! ## Computations that cannot tell states apart -/

section Respects

variable {ε σ τ α β : Type} {see : σ → τ}

/-- States that look alike through `see` lead to results that look alike. -/
def Respects (see : σ → τ) (m : EStateM ε σ α) : Prop :=
  ∀ s s', see s = see s' → mapState see (m s) = mapState see (m s')

/-- What looks like a value is that value in a state that looks alike. -/
theorem mapState_eq_ok {r : EStateM.Result ε σ α} {a : α} {t : τ}
    (h : mapState see r = .ok a t) : ∃ s, r = .ok a s ∧ see s = t := by
  cases r with
  | ok b s =>
    cases h
    exact ⟨s, rfl, rfl⟩
  | error e s => cases h

theorem mapState_eq_error {r : EStateM.Result ε σ α} {e : ε} {t : τ}
    (h : mapState see r = .error e t) : ∃ s, r = .error e s ∧ see s = t := by
  cases r with
  | ok b s => cases h
  | error e' s =>
    cases h
    exact ⟨s, rfl, rfl⟩

namespace Respects

theorem pure (a : α) : Respects see (pure a : EStateM ε σ α) := by
  intro s s' h
  exact congrArg (EStateM.Result.ok a) h

theorem throw (e : ε) : Respects see (throw e : EStateM ε σ α) := by
  intro s s' h
  exact congrArg (EStateM.Result.error e) h

/-- A sequence whose second part respects `see` at the values the first part returns. -/
theorem bind_of {m : EStateM ε σ α} {f : α → EStateM ε σ β} (hm : Respects see m)
    (hf : ∀ s a s', m s = .ok a s' → Respects see (f a)) : Respects see (m >>= f) := by
  intro s s' h
  have hrun := hm s s' h
  cases h₁ : m s with
  | ok a t =>
    rw [h₁] at hrun
    obtain ⟨t', h₂, ht⟩ := mapState_eq_ok hrun.symm
    rw [bind_run_ok h₁, bind_run_ok h₂]
    exact hf s a t h₁ t t' ht.symm
  | error e t =>
    rw [h₁] at hrun
    obtain ⟨t', h₂, ht⟩ := mapState_eq_error hrun.symm
    rw [bind_run_error h₁, bind_run_error h₂]
    exact congrArg (EStateM.Result.error e) ht.symm

theorem bind {m : EStateM ε σ α} {f : α → EStateM ε σ β} (hm : Respects see m)
    (hf : ∀ a, Respects see (f a)) : Respects see (m >>= f) :=
  hm.bind_of fun _ a _ _ => hf a

end Respects

end Respects

end Fasm
