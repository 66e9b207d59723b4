import Fasm.Jit.Codegen

/-!
# What machine bits denote

A register denotes a value of the interpreter if it holds the value's number, which is
signed in both machine widths, or the bits of the float.
-/

namespace Fasm

/-! ## Denotation -/

/-- The number that the JIT has for a value: that of `numeric_as_i64`, and 0 for `NULL`. -/
def Value.number : Value → Option U64
  | .null => some 0
  | v => numericAsI64 v

/-- The bits of a register denote a value. -/
def Denotes : (t : JitType) → BitVec t.width → Value → Prop
  | .i32, b, v | .i64, b, v => v.number = some (b.signExtend 64)
  | .f32, b, v => v = .float32 b
  | .f64, b, v => v = .float64 b

/-- A register of the type can denote the value. -/
def JitType.Holds (t : JitType) (v : Value) : Prop := ∃ b, Denotes t b v

/-- The number fits into the type. -/
def JitType.Fits (t : JitType) (n : U64) : Prop := (n.setWidth t.width).signExtend 64 = n

instance JitType.decidableFits (t : JitType) (n : U64) : Decidable (t.Fits n) :=
  inferInstanceAs (Decidable (_ = _))

/-- The number is the same whether wrapped to the FASM type or to the machine type. -/
def JitType.Wraps (m : JitType) (t : IntTy) (n : U64) : Prop :=
  (n.setWidth m.width).signExtend 64 = asI64 t (n.setWidth t.width)

section Denotes

variable {t s m : JitType} {v : Value} {n : U64}

theorem denotes_int (ht : t.isInt) {b : BitVec t.width} :
    Denotes t b v ↔ v.number = some (b.signExtend 64) := by
  cases t with
  | i32 | i64 => rfl
  | f32 | f64 => cases ht

/-- A register that denotes a number is an integer. -/
theorem Denotes.isInt {b : BitVec t.width} (h : Denotes t b v) (hn : v.number = some n) :
    t.isInt := by
  cases t with
  | i32 | i64 => rfl
  | f32 | f64 => cases h; cases hn

theorem Denotes.number_eq {b : BitVec t.width} (h : Denotes t b v) (hn : v.number = some n) :
    b.signExtend 64 = n := by
  rw [denotes_int (h.isInt hn), hn] at h
  exact (Option.some.inj h).symm

theorem setWidth_signExtend (b : BitVec t.width) : (b.signExtend 64).setWidth t.width = b := by
  refine BitVec.eq_of_toInt_eq ?_
  rw [← BitVec.signExtend_eq_setWidth_of_le _ t.width_le,
    BitVec.toInt_signExtend_eq_toInt_bmod_of_le _ t.width_le,
    BitVec.toInt_signExtend_of_le t.width_le, BitVec.toInt_bmod_cancel]

/-- The register holds the number modulo its width. -/
theorem Denotes.bits_eq {b : BitVec t.width} (h : Denotes t b v) (hn : v.number = some n) :
    b = n.setWidth t.width := by
  rw [← h.number_eq hn, setWidth_signExtend]

theorem Denotes.fits {b : BitVec t.width} (h : Denotes t b v) (hn : v.number = some n) :
    t.Fits n := by
  rw [JitType.Fits, ← h.bits_eq hn]
  exact h.number_eq hn

/-- One register denotes at most one number. -/
theorem Denotes.of_number {v' : Value} {b : BitVec t.width} (h : Denotes t b v)
    (hn : v.number = some n) (hn' : v'.number = some n) : Denotes t b v' := by
  rw [denotes_int (h.isInt hn), hn', h.number_eq hn]

/-- Numbers keep their low bits in a conversion. -/
theorem convertBits_number {b : BitVec s.width} (h : Denotes s b v) (hn : v.number = some n)
    (ht : t.isInt) : convertBits s t b = n.setWidth t.width := by
  have hs := h.isInt hn
  have hb := h.number_eq hn
  cases s with
  | i32 =>
    cases t with
    | i32 => exact h.bits_eq hn
    | i64 => exact hb.trans (BitVec.setWidth_eq n).symm
    | f32 | f64 => cases ht
  | i64 =>
    have hbits := h.bits_eq hn
    cases t with
    | i32 =>
      show b.setWidth 32 = _
      rw [hbits]
      exact congrArg (BitVec.setWidth 32) (BitVec.setWidth_eq n)
    | i64 => exact hbits
    | f32 | f64 => cases ht
  | f32 | f64 => cases hs

/-- A conversion to a type that can denote the value denotes it. -/
theorem Denotes.convert {b : BitVec s.width} (h : Denotes s b v) (ht : t.Holds v) :
    Denotes t (convertBits s t b) v := by
  obtain ⟨b', hb'⟩ := ht
  cases hn : v.number with
  | some n =>
    rw [convertBits_number h hn (hb'.isInt hn), ← hb'.bits_eq hn]
    exact hb'
  | none =>
    cases s with
    | i32 | i64 => exact absurd (hn.symm.trans h) nofun
    | f32 =>
      cases t with
      | i32 | i64 => exact absurd (hn.symm.trans hb') nofun
      | f32 => exact h
      | f64 => cases h; cases hb'
    | f64 =>
      cases t with
      | i32 | i64 => exact absurd (hn.symm.trans hb') nofun
      | f32 => cases h; cases hb'
      | f64 => exact h

/-- The result of an integer operation. -/
theorem denotes_wraps {it : IntTy} (hm : m.isInt) (h : m.Wraps it n) :
    Denotes m (n.setWidth m.width) (.int it (n.setWidth it.width)) :=
  (denotes_int hm).mpr (congrArg some h.symm)

end Denotes

/-! ## Integer operations -/

section Words

variable {m : JitType} {x y : U64}

theorem JitType.Fits.toInt_eq (hx : m.Fits x) : (x.setWidth m.width).toInt = x.toInt := by
  have h := congrArg BitVec.toInt hx
  rwa [BitVec.toInt_signExtend_of_le m.width_le] at h

theorem JitType.Fits.of_toInt {b : BitVec m.width} (h : b.toInt = x.toInt) :
    b = x.setWidth m.width ∧ m.Fits x := by
  have hb : b.signExtend 64 = x := by
    apply BitVec.eq_of_toInt_eq
    rw [BitVec.toInt_signExtend_of_le m.width_le, h]
  have hbits : b = x.setWidth m.width := by rw [← hb, setWidth_signExtend]
  refine ⟨hbits, ?_⟩
  rw [JitType.Fits, ← hbits, hb]

/-- The smallest number of the type. -/
def JitType.minNum (m : JitType) : U64 := (BitVec.intMin m.width).signExtend 64

theorem minNum_eq (hx : m.Fits x) : x = m.minNum ↔ x.setWidth m.width = .intMin m.width := by
  constructor
  · rintro rfl
    refine BitVec.eq_of_toInt_eq ?_
    rw [hx.toInt_eq, JitType.minNum, BitVec.toInt_signExtend_of_le m.width_le]
  · intro h
    rw [JitType.minNum, ← h]
    exact hx.symm

theorem setWidth_neg_one : (-1 : U64).setWidth m.width = -1 := by cases m <;> rfl

theorem setWidth_eq_neg_one (hy : m.Fits y) : y.setWidth m.width = -1 ↔ y = -1 := by
  constructor
  · intro h
    refine BitVec.eq_of_toInt_eq ?_
    rw [← hy.toInt_eq, h, ← setWidth_neg_one (m := m), JitType.Fits.toInt_eq]
    cases m <;> rfl
  · rintro rfl
    exact setWidth_neg_one

theorem setWidth_eq_zero (hy : m.Fits y) : y.setWidth m.width = 0 ↔ y = 0 := by
  constructor
  · intro h
    refine BitVec.eq_of_toInt_eq ?_
    rw [← hy.toInt_eq, h]
    simp
  · rintro rfl
    simp

theorem setWidth_sdiv (hx : m.Fits x) (hy : m.Fits y) (h : ¬ (x = m.minNum ∧ y = -1)) :
    (x.setWidth m.width).sdiv (y.setWidth m.width) = (x.sdiv y).setWidth m.width := by
  have hne : x.setWidth m.width ≠ .intMin m.width ∨ y.setWidth m.width ≠ -1 := by
    by_contra hcon
    rw [not_or, not_not, not_not] at hcon
    exact h ⟨(minNum_eq hx).mpr hcon.1, (setWidth_eq_neg_one hy).mp hcon.2⟩
  have hne' : x ≠ .intMin 64 ∨ y ≠ -1 := by
    by_contra hcon
    rw [not_or, not_not, not_not] at hcon
    obtain ⟨rfl, rfl⟩ := hcon
    cases m with
    | i32 | f32 => exact absurd hx (by decide)
    | i64 | f64 => exact h ⟨by decide, rfl⟩
  refine (JitType.Fits.of_toInt ?_).1
  rw [BitVec.toInt_sdiv_of_ne_or_ne _ _ hne, BitVec.toInt_sdiv_of_ne_or_ne _ _ hne', hx.toInt_eq,
    hy.toInt_eq]

theorem setWidth_srem (hx : m.Fits x) (hy : m.Fits y) :
    (x.setWidth m.width).srem (y.setWidth m.width) = (x.srem y).setWidth m.width := by
  refine (JitType.Fits.of_toInt ?_).1
  rw [BitVec.toInt_srem, BitVec.toInt_srem, hx.toInt_eq, hy.toInt_eq]

theorem setWidth_sshiftRight (hx : m.Fits x) (k : Nat) :
    (x.setWidth m.width).sshiftRight k = (x.sshiftRight k).setWidth m.width ∧
      m.Fits (x.sshiftRight k) := by
  refine JitType.Fits.of_toInt ?_
  rw [BitVec.toInt_sshiftRight, BitVec.toInt_sshiftRight, hx.toInt_eq]

end Words

end Fasm
