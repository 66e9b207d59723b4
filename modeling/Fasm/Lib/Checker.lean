/-!
# Checkers

A checker returns or fails, and what it decides is a proposition: it returns exactly if that
holds.  A checker that goes through a list remembers something of the elements that it has passed;
what it decides is then a condition on each element and the elements in front of it, in which the
memory does not occur any more.
-/

namespace Fasm

universe u v

variable {α β : Type u} {ε : Type v} {P S : Prop} {Q : α → Prop} {R : β → Prop}

/-- The checker returns exactly if `P` holds, a result of which `Q` holds then. -/
def Accepts (x : Except ε α) (P : Prop) (Q : α → Prop) : Prop :=
  match x with
  | .ok a => P ∧ Q a
  | .error _ => ¬ P

namespace Accepts

theorem pure {a : α} (h : P) (ha : Q a) : Accepts (pure a : Except ε α) P Q := ⟨h, ha⟩

theorem throw {e : ε} (h : ¬ P) : Accepts (throw e : Except ε α) P Q := h

theorem throw_bind {e : ε} {f : α → Except ε β} (h : ¬ P) :
    Accepts ((MonadExcept.throw e : Except ε α) >>= f) P R := h

theorem congr {x : Except ε α} (h : Accepts x P Q) (hP : S ↔ P) : Accepts x S Q := by
  obtain rfl : S = P := propext hP
  exact h

theorem mono {Q' : α → Prop} {x : Except ε α} (h : Accepts x P Q) (hQ : ∀ a, Q a → Q' a) :
    Accepts x P Q' := by
  cases x with
  | ok a => exact ⟨h.1, hQ a h.2⟩
  | error e => exact h

/-- Two checks in sequence. -/
theorem bind {x : Except ε α} {f : α → Except ε β} (hx : Accepts x P Q)
    (hf : ∀ a, P → Q a → Accepts (f a) S R) : Accepts (x >>= f) (P ∧ S) R := by
  cases x with
  | error e => exact fun h => hx h.1
  | ok a => exact (hf a hx.1 hx.2).congr (and_iff_right hx.1)

theorem ite {c : Prop} [Decidable c] {x y : Except ε α} (hx : c → Accepts x P Q)
    (hy : ¬ c → Accepts y P Q) : Accepts (if c then x else y) P Q := by
  split
  case isTrue h => exact hx h
  case isFalse h => exact hy h

/-- It returns exactly if what it decides holds. -/
theorem ok_iff {x : Except ε PUnit} {Q : PUnit → Prop} (h : Accepts x P Q) :
    x = .ok ⟨⟩ ↔ P := by
  cases x with
  | ok a => exact ⟨fun _ => h.1, fun _ => rfl⟩
  | error e => exact ⟨fun h => (by cases h), fun hP => absurd hP h⟩

/-- A loop over the elements checks each. -/
theorem forIn {f : β → PUnit → Except ε (ForInStep PUnit)} {p : β → Prop}
    (h : ∀ b r, Accepts (f b r) (p b) (· = .yield ⟨⟩)) (l : List β) :
    Accepts (forIn l PUnit.unit f) (∀ b ∈ l, p b) fun _ => True := by
  induction l with
  | nil => exact pure (List.forall_mem_nil _) trivial
  | cons b l ih =>
    rw [List.forIn_cons]
    refine ((h b ⟨⟩).bind fun r _ hr => ?_).congr List.forall_mem_cons
    rw [hr]
    exact ih

end Accepts

/-! ## Conditions on histories -/

/-- Each element of the list satisfies `p` behind the elements in front of it. -/
def Throughout (p : List α → α → Prop) (l : List α) : Prop :=
  ∀ pre a post, l = pre ++ a :: post → p pre a

section Throughout

variable {p : List α → α → Prop} {a : α} {l l' : List α}

@[simp]
theorem throughout_nil : Throughout p [] := by
  intro pre a post h
  simp at h

theorem throughout_cons :
    Throughout p (a :: l) ↔ p [] a ∧ Throughout (fun pre => p (a :: pre)) l := by
  constructor
  · exact fun h => ⟨h [] a l rfl, fun pre b post hl => h (a :: pre) b post (by rw [hl]; rfl)⟩
  · rintro ⟨ha, h⟩ pre b post hl
    cases pre with
    | nil =>
      obtain ⟨rfl, rfl⟩ := List.cons.inj hl
      exact ha
    | cons c pre =>
      obtain ⟨rfl, htail⟩ := List.cons.inj hl
      exact h pre b post htail

theorem throughout_singleton : Throughout p [a] ↔ p [] a := by
  rw [throughout_cons]
  exact and_iff_left throughout_nil

theorem throughout_append :
    Throughout p (l ++ l') ↔ Throughout p l ∧ Throughout (fun pre => p (l ++ pre)) l' := by
  induction l generalizing p with
  | nil => exact (and_iff_right throughout_nil).symm
  | cons a l ih => rw [List.cons_append, throughout_cons, throughout_cons, ih, and_assoc]; rfl

end Throughout

end Fasm
