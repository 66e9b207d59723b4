/-!
# Mutexes that panics poison

A panic under the lock of a mutex poisons it, and whoever unwraps the lock of a poisoned mutex
panics as well.  So of operations under the lock that come one after the other, either all return
and the mutex is not poisoned, or the first one that panics takes all later ones with it.
-/

namespace Fasm

universe u

variable {ε σ α : Type u}

/-! ## Attempts -/

/-- Operations one after the other, each of them whether the one before returns or panics: what
they come to, and what they leave. -/
def attempts : List (EStateM ε σ α) → σ → List (Except ε α) × σ
  | [], s => ([], s)
  | f :: fs, s =>
    match f s with
    | .ok a s => let r := attempts fs s; (.ok a :: r.1, r.2)
    | .error x s => let r := attempts fs s; (.error x :: r.1, r.2)

/-- No operation panics. -/
def AllReturn (fs : List (EStateM ε σ α)) (s : σ) : Prop :=
  ∀ o ∈ (attempts fs s).1, ∃ a, o = .ok a

variable {f : EStateM ε σ α} {fs : List (EStateM ε σ α)} {s s' : σ} {a : α} {x : ε}

theorem attempts_cons_ok (h : f s = .ok a s') :
    attempts (f :: fs) s = (.ok a :: (attempts fs s').1, (attempts fs s').2) := by
  rw [attempts, h]

theorem attempts_cons_error (h : f s = .error x s') :
    attempts (f :: fs) s = (.error x :: (attempts fs s').1, (attempts fs s').2) := by
  rw [attempts, h]

theorem allReturn_nil : AllReturn ([] : List (EStateM ε σ α)) s := nofun

theorem allReturn_cons_ok (h : f s = .ok a s') : AllReturn (f :: fs) s ↔ AllReturn fs s' := by
  rw [AllReturn, attempts_cons_ok h, List.forall_mem_cons]
  exact and_iff_right ⟨a, rfl⟩

theorem not_allReturn_cons_error (h : f s = .error x s') : ¬ AllReturn (f :: fs) s := by
  rw [AllReturn, attempts_cons_error h, List.forall_mem_cons]
  rintro ⟨⟨_, ha⟩, -⟩
  cases ha

/-! ## Locks -/

/-- `Mutex`: what it protects, and whether a panic has poisoned it. -/
structure Mutex (σ : Type u) where
  inner : σ
  poisoned : Bool

namespace Mutex

variable {poison : ε} {m : Mutex σ}

/-- `Mutex::new`. -/
def new (s : σ) : Mutex σ := ⟨s, false⟩

/-- `lock().unwrap()`, which panics with `poison`, and an operation under the lock. -/
def locked (poison : ε) (f : EStateM ε σ α) : EStateM ε (Mutex σ) α := fun m =>
  if m.poisoned then .error poison m else
    match f m.inner with
    | .ok a s => .ok a ⟨s, false⟩
    | .error x s => .error x ⟨s, true⟩

theorem locked_ok (h : f s = .ok a s') : locked poison f (new s) = .ok a (new s') := by
  simp only [locked, new, h]
  rfl

theorem locked_error (h : f s = .error x s') : locked poison f (new s) = .error x ⟨s', true⟩ := by
  simp only [locked, new, h]
  rfl

theorem locked_poisoned (h : m.poisoned = true) : locked poison f m = .error poison m := if_pos h

/-- A poisoned mutex stays as it is. -/
theorem attempts_poisoned (h : m.poisoned = true) (fs : List (EStateM ε σ α)) :
    (attempts (fs.map (locked poison)) m).2 = m := by
  induction fs with
  | nil => rfl
  | cons f fs ih =>
    rw [List.map_cons, attempts_cons_error (locked_poisoned h)]
    exact ih

/-- The mutex is poisoned if and only if some operation panics. -/
theorem attempts_unpoisoned_iff (fs : List (EStateM ε σ α)) (s : σ) :
    (attempts (fs.map (locked poison)) (new s)).2.poisoned = false ↔
      AllReturn (fs.map (locked poison)) (new s) := by
  induction fs generalizing s with
  | nil => exact iff_of_true rfl allReturn_nil
  | cons f fs ih =>
    rw [List.map_cons]
    cases h : f s with
    | ok a s' =>
      rw [attempts_cons_ok (locked_ok h), allReturn_cons_ok (locked_ok h)]
      exact ih s'
    | error x s' =>
      refine iff_of_false ?_ (not_allReturn_cons_error (locked_error h))
      rw [attempts_cons_error (locked_error h), attempts_poisoned rfl]
      exact nofun

end Mutex

end Fasm
