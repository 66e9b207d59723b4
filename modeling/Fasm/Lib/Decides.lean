import Fasm.Lib.Hoare

/-!
# Computations that decide a relation

A computation decides a relation of a result and of what is left to read, if it returns the one
result that is related, and fails if none is.  A parser decides its grammar in this sense.  The
rules follow the structure of the computation, and sequencing is the composition of relations: so
a recursive parser is treated by induction on its fuel, without an induction on derivations.
-/

namespace Fasm

universe u v

variable {σ τ α β : Type u} {ε : Type v} {E : ε → Prop} {I : σ → Prop} {view : σ → τ} {s : σ}
  {R R' : α → τ → Prop}

/-- From the state `s`, `x` returns the only result that `R` holds of, with what is seen of the
state that it leaves, which is one of `I`; or `R` holds of nothing, and it fails.  A failure in `E`
says nothing of `R`. -/
def Decides (E : ε → Prop) (I : σ → Prop) (view : σ → τ) (x : StateT σ (Except ε) α) (s : σ)
    (R : α → τ → Prop) : Prop :=
  match x s with
  | .ok (a, s') => I s' ∧ ∀ b t, R b t ↔ b = a ∧ t = view s'
  | .error e => E e ∨ ∀ b t, ¬ R b t

namespace Decides

theorem pure {a : α} (hs : I s) (h : ∀ b t, R b t ↔ b = a ∧ t = view s) :
    Decides E I view (pure a) s R := ⟨hs, h⟩

/-- Nothing is related, and it fails. -/
theorem throw {e : ε} (h : ∀ b t, ¬ R b t) :
    Decides E I view (throw e : StateT σ (Except ε) α) s R := .inr h

/-- It gives up. -/
theorem gives_up {e : ε} (h : E e) :
    Decides E I view (MonadExcept.throw e : StateT σ (Except ε) α) s R := .inl h

theorem congr {x : StateT σ (Except ε) α} (h : Decides E I view x s R)
    (hR : ∀ b t, R' b t ↔ R b t) : Decides E I view x s R' := by
  obtain rfl : R' = R := funext fun b => funext fun t => propext (hR b t)
  exact h

/-- Sequencing: the second relation is that of where the first one ends. -/
theorem bind {x : StateT σ (Except ε) α} {f : α → StateT σ (Except ε) β} {S : α → τ → β → τ → Prop}
    (hx : Decides E I view x s R)
    (hf : ∀ a s', I s' → R a (view s') → Decides E I view (f a) s' (S a (view s'))) :
    Decides E I view (x >>= f) s fun b t => ∃ a m, R a m ∧ S a m b t := by
  have hbind : (x >>= f) s = (x s >>= fun p => f p.1 p.2) := rfl
  rw [Decides] at hx
  cases hxs : x s with
  | error e =>
    rw [hxs] at hx
    rw [Decides, hbind, hxs]
    refine hx.imp_right fun hnone b t => ?_
    rintro ⟨a, m, hR, -⟩
    exact hnone a m hR
  | ok p =>
    obtain ⟨a, s'⟩ := p
    rw [hxs] at hx
    obtain ⟨hI, hR⟩ := hx
    have hfa := hf a s' hI ((hR a (view s')).mpr ⟨rfl, rfl⟩)
    have hstep : Decides E I view (x >>= f) s (S a (view s')) := by
      rw [Decides, hbind, hxs]
      exact hfa
    refine hstep.congr fun b t => ⟨?_, fun h => ⟨a, view s', (hR _ _).mpr ⟨rfl, rfl⟩, h⟩⟩
    rintro ⟨a', m, ham, h⟩
    obtain ⟨rfl, rfl⟩ := (hR a' m).mp ham
    exact h

/-- The last step of a sequence: the result is wrapped. -/
theorem map {x : StateT σ (Except ε) α} {g : α → β} (hx : Decides E I view x s R) :
    Decides E I view (x >>= fun a => Pure.pure (g a)) s fun b t => ∃ a, R a t ∧ b = g a := by
  refine (hx.bind (S := fun a m b t => b = g a ∧ t = m) fun a s' hs' _ =>
    .pure hs' fun _ _ => Iff.rfl).congr fun b t => ?_
  constructor
  · rintro ⟨a, hR, rfl⟩
    exact ⟨a, t, hR, rfl, rfl⟩
  · rintro ⟨a, m, hR, rfl, rfl⟩
    exact ⟨a, hR, rfl⟩

theorem ite {c : Prop} [Decidable c] {x y : StateT σ (Except ε) α}
    (hx : c → Decides E I view x s R) (hy : ¬ c → Decides E I view y s R) :
    Decides E I view (if c then x else y) s R := by
  split
  case isTrue h => exact hx h
  case isFalse h => exact hy h

/-- A choice that the relation makes as well. -/
theorem cond {c : Prop} [Decidable c] {x y : StateT σ (Except ε) α}
    (hx : c → Decides E I view x s R) (hy : ¬ c → Decides E I view y s R') :
    Decides E I view (if c then x else y) s fun b t => if c then R b t else R' b t := by
  by_cases h : c
  · simp only [if_pos h]
    exact hx h
  · simp only [if_neg h]
    exact hy h

/-- A result is what is related. -/
theorem ok_iff {x : StateT σ (Except ε) α} (h : Decides E I view x s R)
    (hE : ∀ e, x s = .error e → ¬ E e) (a : α) :
    (∃ s', x s = .ok (a, s')) ↔ ∃ t, R a t := by
  rw [Decides] at h
  cases hxs : x s with
  | error e =>
    rw [hxs] at h
    have hnone := h.resolve_left (hE e hxs)
    constructor
    · rintro ⟨s', ⟨⟩⟩
    · rintro ⟨t, ht⟩
      exact absurd ht (hnone a t)
  | ok p =>
    obtain ⟨a', s'⟩ := p
    rw [hxs] at h
    constructor
    · rintro ⟨_, ⟨⟩⟩
      exact ⟨view s', (h.2 _ _).mpr ⟨rfl, rfl⟩⟩
    · rintro ⟨t, ht⟩
      obtain ⟨rfl, -⟩ := (h.2 _ _).mp ht
      exact ⟨s', rfl⟩

end Decides

end Fasm
