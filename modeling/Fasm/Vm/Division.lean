import Fasm.Vm.Modular

/-!
# Division

`DIV` and `MOD` divide as `i64`.  For all types but the two 64-bit ones that is the division of
the integers.  `INT64` has one quotient that does not fit, on which the program panics; a large
divisor or dividend of `UINT64` is taken for a negative one.
-/

namespace Fasm

variable {t : IntTy} {x y : BitVec t.width}

/-! ## Division as `i64` -/

/-- An operation of `i64` that checks its operands as a division does. -/
structure DivisionOp (op : U64 → U64 → Except Panic U64) (f : Int → Int → Int) : Prop where
  overflow : op i64Min (-1) = .error .divOverflow
  ofInt : ∀ {a b : U64}, b ≠ 0 → ¬ (a = i64Min ∧ b = -1) →
    op a b = .ok (.ofInt 64 (f a.toInt b.toInt))

theorem divisionOp_div : DivisionOp i64Div Int.tdiv :=
  ⟨rfl, fun h0 h => by rw [i64Div, if_neg h0, if_neg h, sdiv_eq_ofInt]⟩

theorem divisionOp_rem : DivisionOp i64Rem Int.tmod :=
  ⟨rfl, fun h0 h => by rw [i64Rem, if_neg h0, if_neg h, srem_eq_ofInt]⟩

/-- The quotient does not fit an `i64`. -/
def QuotientOverflows (t : IntTy) (x y : BitVec t.width) : Prop :=
  asI64 t x = i64Min ∧ asI64 t y = -1

namespace DivisionOp

variable {op : U64 → U64 → Except Panic U64} {f : Int → Int → Int} (h : DivisionOp op f)
  {g : U64 → U64 → U64}
include h

/-- What `DIV` and `MOD` make of a divisor that is not zero. -/
theorem divChecked_eq_ok (h0 : y ≠ 0) (hover : ¬ QuotientOverflows t x y) :
    divChecked (numericOp op g) (.int t x) (.int t y) =
      .ok (.int t (.ofInt t.width (f (asI64 t x).toInt (asI64 t y).toInt))) := by
  have htruthy : (Value.int t y).isTruthy = true := bne_iff_ne.mpr h0
  have hne : asI64 t y ≠ 0 := isTruthy_int.mp htruthy
  rw [divChecked, if_pos htruthy]
  simp only [checked, numericOp, if_true, h.ofInt hne hover]
  show Except.ok (Value.int t ((BitVec.ofInt 64 _).setWidth t.width)) = _
  rw [setWidth_ofInt t.width_le]

theorem divChecked_overflow (hover : QuotientOverflows t x y) :
    divChecked (numericOp op g) (.int t x) (.int t y) = .error (.panic .divOverflow) := by
  have htruthy : (Value.int t y).isTruthy = true := by
    rw [isTruthy_int, hover.2]
    decide
  rw [divChecked, if_pos htruthy]
  simp only [checked, numericOp, if_true, hover.1, hover.2, h.overflow]
  rfl

end DivisionOp

/-- A zero divisor is a fault. -/
theorem divChecked_zero (op : Value → Value → Except Panic (Option Value)) (a : Value) :
    divChecked op a (.int t 0) = .error (.fault .divisionByZero) := by
  rw [divChecked, if_neg]
  rw [isTruthy_int, not_not]
  cases t <;> rfl

/-! ## Division of integers -/

/-- `DIV` gives the quotient, truncated towards zero, and `MOD` its remainder; a division by zero
is a fault. -/
def DivisionCorrect (t : IntTy) (x y : BitVec t.width) : Prop :=
  if y = 0 then
    Gives Opcode.div.into [.int t x, .int t y] (.error (.fault .divisionByZero)) ∧
    Gives Opcode.mod.into [.int t x, .int t y] (.error (.fault .divisionByZero))
  else
    Gives Opcode.div.into [.int t x, .int t y]
      (.ok (.int t (.ofInt t.width ((t.toInt x).tdiv (t.toInt y))))) ∧
    Gives Opcode.mod.into [.int t x, .int t y]
      (.ok (.int t (.ofInt t.width ((t.toInt x).tmod (t.toInt y)))))

/-- The operands whose division as `i64` is their division. -/
def IntTy.DividesAsI64 (t : IntTy) (x y : Int) : Prop :=
  match t with
  | .int64 => ¬ (x = -2 ^ 63 ∧ y = -1)
  | .uint64 =>
    y = 0 ∨ x < 2 ^ 63 ∧ y < 2 ^ 63 ∨ 2 ^ 63 ≤ y ∧ x + y < 2 ^ 64 ∨ y = 1 ∨ x = y
  | _ => True

theorem divisionCorrect_zero (t : IntTy) (x : BitVec t.width) : DivisionCorrect t x 0 := by
  rw [DivisionCorrect, if_pos rfl]
  exact ⟨(gives_div _ _).of_eq (divChecked_zero _ _), (gives_mod _ _).of_eq (divChecked_zero _ _)⟩

/-- An overflow is no quotient. -/
theorem not_divisionCorrect_of_quotientOverflows (hover : QuotientOverflows t x y) :
    ¬ DivisionCorrect t x y := by
  have h0 : y ≠ 0 := by
    rintro rfl
    have hzero : asI64 t 0 = 0 := by cases t <;> rfl
    exact absurd (hzero.symm.trans hover.2) (by decide)
  rw [DivisionCorrect, if_neg h0]
  rintro ⟨hdiv, -⟩
  have heq := (gives_div _ _).pair_iff.mp hdiv
  rw [show Value.div = numericOp i64Div f64Div from rfl,
    divisionOp_div.divChecked_overflow hover] at heq
  cases heq

/-- Without an overflow, what matters is that the quotients are congruent. -/
theorem divisionCorrect_iff_modEq (h0 : y ≠ 0) (hover : ¬ QuotientOverflows t x y) :
    DivisionCorrect t x y ↔
      (asI64 t x).toInt.tdiv (asI64 t y).toInt ≡ (t.toInt x).tdiv (t.toInt y)
        [ZMOD 2 ^ t.width] := by
  have hcongr (n : BitVec t.width) : (asI64 t n).toInt ≡ t.toInt n [ZMOD 2 ^ t.width] := by
    rw [asI64_eq_ofInt]
    exact (intOf_ofInt_modEq (s := true) _).of_dvd (pow_dvd_pow 2 t.width_le)
  have hdiv := (gives_div (.int t x) (.int t y)).of_eq
    (divisionOp_div.divChecked_eq_ok h0 hover)
  have hmod := (gives_mod (.int t x) (.int t y)).of_eq
    (divisionOp_rem.divChecked_eq_ok h0 hover)
  rw [DivisionCorrect, if_neg h0, hdiv.pair_iff, hmod.pair_iff]
  simp only [Except.ok.injEq, Value.int.injEq, heq_eq_eq, true_and, ofInt_eq_ofInt_iff]
  exact ⟨fun h => h.1, fun h => ⟨h, tmod_modEq (hcongr x) (hcongr y) h⟩⟩

/-- Where the overflow is. -/
theorem quotientOverflows_iff : QuotientOverflows t x y ↔
    t = .int64 ∧ t.toInt x = -2 ^ 63 ∧ t.toInt y = -1 ∨
      t = .uint64 ∧ t.toInt x = 2 ^ 63 ∧ t.toInt y = 2 ^ 64 - 1 := by
  have hiff : QuotientOverflows t x y ↔ (asI64 t x).toInt = -2 ^ 63 ∧ (asI64 t y).toInt = -1 :=
    and_congr BitVec.toInt_inj.symm BitVec.toInt_inj.symm
  rw [hiff]
  by_cases ht : t = .uint64
  · subst ht
    have hx := x.isLt
    have hy := y.isLt
    rw [toInt_asI64_uint64, toInt_asI64_uint64, asSigned, asSigned]
    show _ ↔ IntTy.uint64 = .int64 ∧ _ ∨
      _ ∧ (x.toNat : Int) = 2 ^ 63 ∧ (y.toNat : Int) = 2 ^ 64 - 1
    simp only [reduceCtorEq, false_and, false_or, true_and]
    simp only [IntTy.width] at hx hy
    omega
  · rw [toInt_asI64 (toInt_lt ht x), toInt_asI64 (toInt_lt ht y)]
    constructor
    · intro h
      have hmin := minInt_le_intOf (s := t.signed) x
      have hx : intOf t.signed x = -2 ^ 63 := h.1
      rw [hx] at hmin
      cases t with
      | int64 => exact .inl ⟨rfl, h⟩
      | _ => exact absurd hmin (by decide)
    · rintro (⟨-, h⟩ | ⟨huint, -⟩)
      · exact h
      · exact absurd huint ht

/-- **Division.**  `DIV` and `MOD` are right at every width, exactly but for the one quotient that
`INT64` has no room for, and for operands of `UINT64` that do not divide the same as `i64`. -/
theorem division_correct_iff (t : IntTy) (x y : BitVec t.width) :
    DivisionCorrect t x y ↔ t.DividesAsI64 (t.toInt x) (t.toInt y) := by
  by_cases h0 : y = 0
  · subst h0
    refine iff_of_true (divisionCorrect_zero t x) ?_
    have hzero : t.toInt 0 = 0 := by cases t <;> rfl
    rw [hzero]
    cases t with
    | int64 => exact fun h => absurd h.2 (by decide)
    | uint64 => exact .inl rfl
    | _ => exact trivial
  by_cases hover : QuotientOverflows t x y
  · refine iff_of_false (not_divisionCorrect_of_quotientOverflows hover) ?_
    rcases quotientOverflows_iff.mp hover with ⟨rfl, hx, hy⟩ | ⟨rfl, hx, hy⟩
    · exact fun h => h ⟨hx, hy⟩
    · rw [hx, hy]
      show ¬ (_ ∨ _)
      omega
  rw [divisionCorrect_iff_modEq h0 hover]
  by_cases ht : t = .uint64
  · subst ht
    have hy : y.toNat ≠ 0 := fun h => h0 (BitVec.eq_of_toNat_eq h)
    have hquot : (IntTy.toInt .uint64 x).tdiv (IntTy.toInt .uint64 y) = (x.toNat / y.toNat : Nat) :=
      rfl
    rw [toInt_asI64_uint64, toInt_asI64_uint64, hquot]
    refine (tdiv_asSigned_iff (h := 2 ^ 63) x.isLt y.isLt hy).trans ?_
    show _ ↔ (y.toNat : Int) = 0 ∨ (x.toNat : Int) < 2 ^ 63 ∧ (y.toNat : Int) < 2 ^ 63 ∨
      2 ^ 63 ≤ (y.toNat : Int) ∧ (x.toNat : Int) + y.toNat < 2 ^ 64 ∨ (y.toNat : Int) = 1 ∨
        (x.toNat : Int) = y.toNat
    omega
  · rw [toInt_asI64 (toInt_lt ht x), toInt_asI64 (toInt_lt ht y)]
    refine iff_of_true rfl ?_
    cases t with
    | int64 => exact fun h => hover (quotientOverflows_iff.mpr (.inl ⟨rfl, h⟩))
    | uint64 => exact absurd rfl ht
    | _ => exact trivial

/-- `UINT64` quotients of large integers are wrong, and `INT64` has one that is a panic. -/
theorem division_incorrect :
    ¬ DivisionCorrect .uint64 0x8000000000000000#64 2#64 ∧
    Gives Opcode.div.into [.int .int64 0x8000000000000000#64, .int .int64 0xFFFFFFFFFFFFFFFF#64]
      (.error (.panic .divOverflow)) := by
  constructor
  · intro h
    have h0 : (2#64 : BitVec IntTy.uint64.width) ≠ 0#64 := by decide
    have hover : ¬ QuotientOverflows .uint64 0x8000000000000000#64 2#64 :=
      fun h => absurd h.2 (by decide)
    have hquot := (divisionCorrect_iff_modEq h0 hover).mp h
    exact absurd hquot (by decide)
  · apply (gives_div _ _).of_eq
    exact divisionOp_div.divChecked_overflow ⟨rfl, rfl⟩

end Fasm
