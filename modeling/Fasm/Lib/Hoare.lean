import Fasm.Lib.Focus

/-!
# Triples for computations with a state and failure

`Meets E x s Q` describes both outcomes of `x` from `s`: a result, with the state it leaves,
and an error.  The rules follow the structure of `x`; a loop by fuel is treated by induction
on the fuel, with a bound of what is left to do in `Q`.
-/

namespace Fasm

universe u v

variable {σ α β : Type u} {ε : Type v} {E : ε → Prop} {s : σ} {Q : α → σ → Prop}
  {R : β → σ → Prop}

/-- From the state `s`, `x` returns a result and a state in `Q`, or fails with an error in `E`. -/
def Meets (E : ε → Prop) (x : StateT σ (Except ε) α) (s : σ) (Q : α → σ → Prop) : Prop :=
  match x s with
  | .ok (a, s') => Q a s'
  | .error e => E e

namespace Meets

theorem pure {a : α} (h : Q a s) : Meets E (pure a) s Q := h

theorem throw {e : ε} (h : E e) : Meets E (throw e : StateT σ (Except ε) α) s Q := h

theorem get {Q : σ → σ → Prop} (h : Q s s) : Meets E get s Q := h

theorem set {s' : σ} {Q : PUnit → σ → Prop} (h : Q ⟨⟩ s') : Meets E (set s') s Q := h

/-- Sequencing: what `x` leaves is where `f` starts. -/
theorem bind {x : StateT σ (Except ε) α} {f : α → StateT σ (Except ε) β} (hx : Meets E x s Q)
    (hf : ∀ a s', Q a s' → Meets E (f a) s' R) : Meets E (x >>= f) s R := by
  have hbind : (x >>= f) s = (x s >>= fun p => f p.1 p.2) := rfl
  rw [Meets] at hx
  rw [Meets, hbind]
  cases hxs : x s with
  | ok p =>
    rw [hxs] at hx
    exact hf p.1 p.2 hx
  | error e =>
    rw [hxs] at hx
    exact hx

/-- Consequence. -/
theorem mono {x : StateT σ (Except ε) α} {Q' : α → σ → Prop} (h : Meets E x s Q)
    (hQ : ∀ a s', Q a s' → Q' a s') : Meets E x s Q' := by
  rw [Meets] at h ⊢
  cases hxs : x s with
  | ok p =>
    rw [hxs] at h
    exact hQ _ _ h
  | error e =>
    rw [hxs] at h
    exact h

theorem ite {c : Prop} [Decidable c] {x y : StateT σ (Except ε) α} (hx : c → Meets E x s Q)
    (hy : ¬ c → Meets E y s Q) : Meets E (if c then x else y) s Q := by
  split
  case isTrue h => exact hx h
  case isFalse h => exact hy h

/-- What is said of a result. -/
theorem of_ok {x : StateT σ (Except ε) α} (h : Meets E x s Q) {a : α} {s' : σ}
    (hx : x s = .ok (a, s')) : Q a s' := by
  rw [Meets, hx] at h
  exact h

/-- What is said of an error. -/
theorem of_error {x : StateT σ (Except ε) α} (h : Meets E x s Q) {e : ε}
    (hx : x s = .error e) : E e := by
  rw [Meets, hx] at h
  exact h

end Meets

end Fasm
