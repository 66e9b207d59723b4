import Fasm.Vm.Modular

/-!
# Shifts

The count of a shift is truncated to a `u32`, and the machine shift takes it modulo the width.
So a count below the width is exact, and any other one is taken for its remainder.
-/

namespace Fasm

variable {t u : IntTy} {x : BitVec t.width} {m : BitVec u.width} {s : Nat}

/-! ## The count -/

/-- Truncation to 32 bits does not change the count modulo the width. -/
theorem count_mod_width (ht : 4 ≤ t.bytes) (s : Nat) :
    (BitVec.ofInt 32 s).toNat % t.width = s % t.width := by
  rw [BitVec.ofInt_natCast, BitVec.toNat_ofNat]
  apply Nat.mod_mod_of_dvd
  cases t with
  | int32 | uint32 | int64 | uint64 => decide
  | _ => exact absurd ht (by decide)

/-! ## What the shifts give -/

section Gives

variable (ht : 4 ≤ t.bytes) (hs : u.toInt m = s)
include ht hs

/-- `SHL` multiplies by a power for the remainder of the count. -/
theorem gives_shl_int : Gives Opcode.shl.into [.int t x, .int u m]
    (.ok (.int t (.ofInt t.width (t.toInt x * 2 ^ (s % t.width))))) := by
  apply (gives_shl _ _).of_eq
  have hshl : Value.shl (.int t x) (.ofInt 32 s) =
      some (.int t (.ofInt t.width (t.toInt x * 2 ^ (s % t.width)))) := by
    rw [Value.shl, if_neg (Nat.not_lt.mpr ht), count_mod_width ht,
      shiftLeft_eq_ofInt (s := t.signed)]
    rfl
  rw [shifted, asU32_int, hs]
  show orFault (Value.shl _ _) _ = _
  rw [hshl]
  rfl

/-- `SHR` divides by it. -/
theorem gives_shr_int : Gives Opcode.shr.into [.int t x, .int u m]
    (.ok (.int t (.ofInt t.width (t.toInt x / 2 ^ (s % t.width))))) := by
  apply (gives_shr _ _).of_eq
  have hshr : Value.shr (.int t x) (.ofInt 32 s) =
      some (.int t (.ofInt t.width (t.toInt x / 2 ^ (s % t.width)))) := by
    rw [Value.shr, if_neg (Nat.not_lt.mpr ht), count_mod_width ht]
    exact congrArg (fun n => some (Value.int t n)) (shiftRight_eq_ofInt x _)
  rw [shifted, asU32_int, hs]
  show orFault (Value.shr _ _) _ = _
  rw [hshr]
  rfl

end Gives

/-! ## Exact shifts -/

/-- `SHL` by `s` is exact: the vacated bits are zeros. -/
def ShlExact (t : IntTy) (x : BitVec t.width) (count : Value) (s : Nat) : Prop :=
  Gives Opcode.shl.into [.int t x, count] (.ok (.int t (.ofInt t.width (t.toInt x * 2 ^ s))))

/-- `SHR` by `s` is exact: the vacated bits are zeros, or copies of the sign. -/
def ShrExact (t : IntTy) (x : BitVec t.width) (count : Value) (s : Nat) : Prop :=
  Gives Opcode.shr.into [.int t x, count] (.ok (.int t (.ofInt t.width (t.toInt x / 2 ^ s))))

/-- Multiples by powers whose exponents are the same modulo the width. -/
theorem mul_pow_modEq_iff {w : Nat} (hw : 0 < w) {i : Int} :
    i * 2 ^ (s % w) ≡ i * 2 ^ s [ZMOD 2 ^ w] ↔ s < w ∨ 2 ^ (w - s % w) ∣ i := by
  rcases Nat.lt_or_ge s w with hlt | hge
  · rw [Nat.mod_eq_of_lt hlt]
    exact iff_of_true rfl (.inl hlt)
  · have hmod := Nat.mod_lt s hw
    have hzero : i * 2 ^ s ≡ 0 [ZMOD 2 ^ w] :=
      Int.modEq_zero_iff_dvd.mpr (dvd_mul_of_dvd_right (pow_dvd_pow 2 hge) i)
    have hpow : (2 : Int) ^ w = 2 ^ (w - s % w) * 2 ^ (s % w) := by
      rw [← pow_add, Nat.sub_add_cancel hmod.le]
    constructor
    · intro h
      right
      have hdvd := Int.modEq_zero_iff_dvd.mp (h.trans hzero)
      rw [hpow] at hdvd
      exact Int.dvd_of_mul_dvd_mul_right (by positivity) hdvd
    · rintro (hlt | hdvd)
      · omega
      · refine Int.ModEq.trans (Int.modEq_zero_iff_dvd.mpr ?_) hzero.symm
        rw [hpow]
        exact mul_dvd_mul_right hdvd _

/-- A quotient is nothing but the sign. -/
theorem div_eq_sign_iff {i d : Int} (hd : 0 < d) :
    i / d = (if i < 0 then -1 else 0) ↔ -d ≤ i ∧ i < d := by
  have hlow := Int.le_ediv_iff_mul_le (a := -1) (b := i) hd
  have hhigh := Int.ediv_lt_iff_lt_mul (a := i) (b := 1) hd
  split
  · have hneg := Int.ediv_neg_of_neg_of_pos ‹i < 0› hd
    omega
  · have hnonneg := Int.ediv_nonneg (Int.not_lt.mp ‹¬ i < 0›) hd.le
    omega

/-- Quotients by powers whose exponents are the same modulo the width. -/
theorem div_pow_eq_iff {w : Nat} {i : Int} (hmin : -2 ^ w ≤ i) (hmax : i < 2 ^ w) :
    i / 2 ^ (s % w) = i / 2 ^ s ↔ s < w ∨ -2 ^ (s % w) ≤ i ∧ i < 2 ^ (s % w) := by
  rcases Nat.lt_or_ge s w with hlt | hge
  · rw [Nat.mod_eq_of_lt hlt]
    exact iff_of_true rfl (.inl hlt)
  · have hpow : (2 : Int) ^ w ≤ 2 ^ s := pow_le_pow_right₀ (by decide) hge
    have hsign : i / 2 ^ s = if i < 0 then -1 else 0 :=
      (div_eq_sign_iff (by positivity)).mpr ⟨by omega, by omega⟩
    rw [hsign, div_eq_sign_iff (by positivity)]
    exact ⟨.inr, fun h => h.resolve_left (Nat.not_lt.mpr hge)⟩

/-- An integer of a type is no larger than a power for its width. -/
theorem toInt_range (t : IntTy) (n : BitVec t.width) :
    -2 ^ t.width ≤ t.toInt n ∧ t.toInt n < 2 ^ t.width := by
  have hmin := minInt_le_intOf (s := t.signed) n
  have hmax := intOf_lt_maxInt (s := t.signed) n
  constructor
  · refine le_trans ?_ hmin
    cases t <;> decide
  · refine lt_of_lt_of_le hmax ?_
    cases t <;> decide

/-- **Shifts.**  A shift to the left is exact when the count is below the width, or the remainder
of the count shifts out all bits that are set; a shift to the right when the count is below the
width, or its remainder leaves nothing but copies of the sign. -/
theorem shift_correct_iff (ht : 4 ≤ t.bytes) (hs : u.toInt m = s) :
    (ShlExact t x (.int u m) s ↔ s < t.width ∨ 2 ^ (t.width - s % t.width) ∣ t.toInt x) ∧
    (ShrExact t x (.int u m) s ↔
      s < t.width ∨ -2 ^ (s % t.width) ≤ t.toInt x ∧ t.toInt x < 2 ^ (s % t.width)) := by
  constructor
  · rw [ShlExact, (gives_shl_int ht hs).pair_iff, ← mul_pow_modEq_iff t.width_pos]
    simp only [Except.ok.injEq, Value.int.injEq, heq_eq_eq, true_and, ofInt_eq_ofInt_iff]
  · have hrange := toInt_range t x
    rw [ShrExact, (gives_shr_int ht hs).pair_iff, ← div_pow_eq_iff hrange.1 hrange.2]
    simp only [Except.ok.injEq, Value.int.injEq, heq_eq_eq, true_and]
    -- Both quotients are integers of the type, so their patterns tell them apart.
    constructor
    · intro h
      have hread := congrArg (intOf t.signed) h
      rwa [IntTy.toInt, intOf_ofInt_div t.width_pos, intOf_ofInt_div t.width_pos] at hread
    · exact congrArg _

/-- Counts below the width. -/
theorem shift_correct_byte : ShlExact .int32 1#32 (.int .uint8 5#8) 5 :=
  (shift_correct_iff (by decide) rfl).1.mpr (.inl (by decide))

/-- A shift by the width does nothing. -/
theorem shift_incorrect :
    IntTy.toInt .uint8 32#8 = (32 : Nat) ∧
    Gives Opcode.shl.into [.int .int32 1#32, .int .uint8 32#8] (.ok (.int .int32 1#32)) ∧
    ¬ ShlExact .int32 1#32 (.int .uint8 32#8) 32 ∧
    Gives Opcode.shr.into [.int .int32 1#32, .int .uint8 32#8] (.ok (.int .int32 1#32)) ∧
    ¬ ShrExact .int32 1#32 (.int .uint8 32#8) 32 := by
  have hshl : Gives Opcode.shl.into [.int .int32 1#32, .int .uint8 32#8]
      (.ok (.int .int32 1#32)) := (gives_shl _ _).of_eq rfl
  have hshr : Gives Opcode.shr.into [.int .int32 1#32, .int .uint8 32#8]
      (.ok (.int .int32 1#32)) := (gives_shr _ _).of_eq rfl
  have hne (n : BitVec 32) (h : n ≠ 1#32) :
      (Except.ok (.int .int32 1#32) : Except Stop Value) ≠ .ok (.int .int32 n) := by
    intro heq
    injection heq with heq
    injection heq with _ heq
    exact h heq.symm
  refine ⟨rfl, hshl, fun h => ?_, hshr, fun h => ?_⟩
  · exact hne (.ofInt 32 (1 * 2 ^ 32)) (by decide) (hshl.pair_iff.mp h)
  · exact hne (.ofInt 32 (1 / 2 ^ 32)) (by decide) (hshr.pair_iff.mp h)

end Fasm
