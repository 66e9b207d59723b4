import Mathlib.Data.Int.ModEq
import Mathlib.Tactic.Positivity
import Mathlib.Tactic.Ring

/-!
# Machine integers

A pattern of `w` bits represents an integer, as it is or in two's complement.  Patterns of one
width are the integers modulo `2 ^ w`: `BitVec.ofInt` takes an integer to its pattern, and
respects sums, products and changes of width.  So a computation in a wider machine type that is
truncated at the end is the computation on integers, modulo the narrower width.
-/

namespace Fasm

variable {v w : Nat}

/-- The integer that a pattern represents, in two's complement where it is signed. -/
def intOf (signed : Bool) (n : BitVec w) : Int := if signed then n.toInt else n.toNat

/-- The smallest integer of a machine type. -/
def minInt (signed : Bool) (w : Nat) : Int := if signed then -2 ^ (w - 1) else 0

/-- The largest integer of a machine type, and one more. -/
def maxInt (signed : Bool) (w : Nat) : Int := if signed then 2 ^ (w - 1) else 2 ^ w

/-- A conversion `as`: the pattern is extended as its type says, or truncated. -/
def widen (signed : Bool) (v : Nat) (n : BitVec w) : BitVec v :=
  if signed then n.signExtend v else n.setWidth v

variable {s t : Bool}

@[simp] theorem intOf_true (n : BitVec w) : intOf true n = n.toInt := rfl

@[simp] theorem intOf_false (n : BitVec w) : intOf false n = n.toNat := rfl

/-! ## Patterns of integers -/

/-- The pattern of the integer that a pattern represents. -/
@[simp] theorem ofInt_intOf (n : BitVec w) : BitVec.ofInt w (intOf s n) = n := by
  cases s with
  | true => exact BitVec.ofInt_toInt
  | false => simp

/-- Two integers have the same pattern when they are congruent. -/
theorem ofInt_eq_ofInt_iff {i j : Int} :
    BitVec.ofInt w i = BitVec.ofInt w j ↔ i ≡ j [ZMOD 2 ^ w] := by
  have hmod (i : Int) : ((BitVec.ofInt w i).toNat : Int) = i % 2 ^ w := by
    rw [BitVec.toNat_ofInt, Int.toNat_of_nonneg (Int.emod_nonneg _ (by positivity)),
      Nat.cast_pow, Nat.cast_ofNat]
  unfold Int.ModEq
  rw [← BitVec.toNat_inj, ← Int.natCast_inj, hmod, hmod]

/-- The pattern of an integer represents it, but for multiples of `2 ^ w`. -/
theorem intOf_ofInt_modEq (i : Int) : intOf s (BitVec.ofInt w i) ≡ i [ZMOD 2 ^ w] :=
  ofInt_eq_ofInt_iff.mp (ofInt_intOf _)

/-- Congruent integers are represented by the same pattern. -/
theorem intOf_modEq_iff {m n : BitVec w} : intOf s m ≡ intOf t n [ZMOD 2 ^ w] ↔ m = n := by
  rw [← ofInt_eq_ofInt_iff, ofInt_intOf, ofInt_intOf]

/-! ## Ranges -/

theorem minInt_le_intOf (n : BitVec w) : minInt s w ≤ intOf s n := by
  cases s with
  | true => exact n.le_toInt
  | false => exact Int.natCast_nonneg _

theorem intOf_lt_maxInt (n : BitVec w) : intOf s n < maxInt s w := by
  cases s with
  | true => exact n.toInt_lt
  | false =>
    show (n.toNat : Int) < 2 ^ w
    exact_mod_cast n.isLt

/-- A type has as many integers as patterns. -/
theorem maxInt_sub_minInt (h : 0 < w) : maxInt s w - minInt s w = 2 ^ w := by
  cases s with
  | true =>
    obtain ⟨k, rfl⟩ := Nat.exists_eq_succ_of_ne_zero h.ne'
    show (2 : Int) ^ k - -2 ^ k = 2 ^ (k + 1)
    ring
  | false => exact Int.sub_zero _

/-- An integer in the range of a type is represented exactly. -/
theorem intOf_ofInt {i : Int} (hw : 0 < w) (hmin : minInt s w ≤ i) (hmax : i < maxInt s w) :
    intOf s (BitVec.ofInt w i) = i := by
  have hsize := maxInt_sub_minInt (s := s) hw
  have hle := minInt_le_intOf (s := s) (BitVec.ofInt w i)
  have hlt := intOf_lt_maxInt (s := s) (BitVec.ofInt w i)
  obtain ⟨k, hk⟩ := (intOf_ofInt_modEq (s := s) (w := w) i).dvd
  have hpos : (0 : Int) < 2 ^ w := by positivity
  have hlow : -1 < k := by
    by_contra hneg
    have : (2 : Int) ^ w * k ≤ 2 ^ w * (-1) :=
      Int.mul_le_mul_of_nonneg_left (by omega) hpos.le
    omega
  have hhigh : k < 1 := by
    by_contra hge
    have : (2 : Int) ^ w * 1 ≤ 2 ^ w * k := Int.mul_le_mul_of_nonneg_left (by omega) hpos.le
    omega
  obtain rfl : k = 0 := by omega
  omega

/-! ## Conversions -/

/-- A conversion goes by way of the integer. -/
theorem widen_eq_ofInt (n : BitVec w) : widen s v n = BitVec.ofInt v (intOf s n) := by
  cases s with
  | true => rfl
  | false =>
    show n.setWidth v = BitVec.ofInt v n.toNat
    rw [BitVec.ofInt_natCast, BitVec.ofNat_toNat]

/-- Truncation respects patterns of integers. -/
theorem setWidth_ofInt {i : Int} (h : v ≤ w) :
    (BitVec.ofInt w i).setWidth v = BitVec.ofInt v i := by
  have hsetWidth := widen_eq_ofInt (s := false) (v := v) (BitVec.ofInt w i)
  rw [show widen false v (BitVec.ofInt w i) = (BitVec.ofInt w i).setWidth v from rfl] at hsetWidth
  rw [hsetWidth, ofInt_eq_ofInt_iff]
  exact (intOf_ofInt_modEq i).of_dvd (pow_dvd_pow 2 h)

/-- A conversion to a type that has the integer keeps it. -/
theorem intOf_widen {n : BitVec w} (hv : 0 < v) (hmin : minInt t v ≤ intOf s n)
    (hmax : intOf s n < maxInt t v) : intOf t (widen s v n) = intOf s n := by
  rw [widen_eq_ofInt]
  exact intOf_ofInt hv hmin hmax

/-! ## Shifts -/

/-- A shift to the left multiplies. -/
theorem shiftLeft_eq_ofInt (n : BitVec w) (k : Nat) :
    n <<< k = BitVec.ofInt w (intOf s n * 2 ^ k) := by
  have hnat : n <<< k = BitVec.ofInt w (intOf false n * 2 ^ k) := by
    apply BitVec.eq_of_toNat_eq
    rw [BitVec.toNat_shiftLeft, Nat.shiftLeft_eq, intOf_false,
      show (n.toNat : Int) * 2 ^ k = (n.toNat * 2 ^ k : Nat) by push_cast; rfl,
      BitVec.ofInt_natCast, BitVec.toNat_ofNat]
  rw [hnat, ofInt_eq_ofInt_iff]
  have hmod : intOf false n ≡ intOf s n [ZMOD 2 ^ w] := intOf_modEq_iff.mpr rfl
  exact hmod.mul_right _

/-- A shift to the right divides, and rounds down. -/
theorem shiftRight_eq_ofInt (n : BitVec w) (k : Nat) :
    (if s then n.sshiftRight k else n >>> k) = BitVec.ofInt w (intOf s n / 2 ^ k) := by
  cases s with
  | true =>
    show BitVec.ofInt w (n.toInt >>> k) = _
    rw [Int.shiftRight_eq_div_pow]
    norm_cast
  | false =>
    apply BitVec.eq_of_toNat_eq
    show (n >>> k).toNat = _
    have hdiv : (n.toNat : Int) / 2 ^ k = (n.toNat / 2 ^ k : Nat) := by push_cast; rfl
    have hlt : n.toNat / 2 ^ k < 2 ^ w := (Nat.div_le_self _ _).trans_lt n.isLt
    rw [BitVec.toNat_ushiftRight, Nat.shiftRight_eq_div_pow, intOf_false, hdiv,
      BitVec.ofInt_natCast, BitVec.toNat_ofNat, Nat.mod_eq_of_lt hlt]

/-- A quotient by a power of two is in the range of the dividend. -/
theorem intOf_ofInt_div (hw : 0 < w) (n : BitVec w) (k : Nat) :
    intOf s (BitVec.ofInt w (intOf s n / 2 ^ k)) = intOf s n / 2 ^ k := by
  have hmin := minInt_le_intOf (s := s) n
  have hmax := intOf_lt_maxInt (s := s) n
  have hpos : (1 : Int) ≤ 2 ^ k := one_le_pow₀ (by decide)
  have hneg : minInt s w ≤ 0 := by
    cases s with
    | true => exact neg_nonpos.mpr (by positivity)
    | false => exact le_rfl
  apply intOf_ofInt hw
  · apply (Int.le_ediv_iff_mul_le (by omega)).mpr
    exact (mul_le_of_one_le_right hneg hpos).trans hmin
  · rcases lt_or_ge (intOf s n) 0 with hlt | hge
    · have hquot := Int.ediv_neg_of_neg_of_pos hlt (by omega : (0 : Int) < 2 ^ k)
      refine hquot.trans ?_
      cases s with
      | true => exact (by positivity : (0 : Int) < 2 ^ (w - 1))
      | false => exact (by positivity : (0 : Int) < 2 ^ w)
    · exact (Int.ediv_le_self _ hge).trans_lt hmax

/-! ## Division -/

/-- The quotient of signed patterns is the pattern of the quotient. -/
theorem sdiv_eq_ofInt (m n : BitVec w) : m.sdiv n = BitVec.ofInt w (m.toInt.tdiv n.toInt) := by
  apply BitVec.eq_of_toInt_eq
  rw [BitVec.toInt_sdiv, BitVec.toInt_ofInt]

/-- The same for remainders. -/
theorem srem_eq_ofInt (m n : BitVec w) : m.srem n = BitVec.ofInt w (m.toInt.tmod n.toInt) := by
  rw [← BitVec.toInt_srem, BitVec.ofInt_toInt]

/-- Remainders are congruent when quotients are. -/
theorem tmod_modEq {i i' j j' m : Int} (hi : i ≡ i' [ZMOD m]) (hj : j ≡ j' [ZMOD m])
    (hdiv : i.tdiv j ≡ i'.tdiv j' [ZMOD m]) : i.tmod j ≡ i'.tmod j' [ZMOD m] := by
  rw [Int.tmod_def, Int.tmod_def]
  exact hi.sub (hj.mul hdiv)

/-- An unsigned integer below `2 * h`, read as a signed one. -/
def asSigned (h x : Nat) : Int := if x < h then x else x - 2 * h

theorem asSigned_of_lt {h x : Nat} (hx : x < h) : asSigned h x = x := if_pos hx

theorem asSigned_of_le {h x : Nat} (hle : h ≤ x) (hx : x < 2 * h) :
    asSigned h x = -((2 * h - x : Nat) : Int) := by
  rw [asSigned, if_neg (Nat.not_lt.mpr hle)]
  omega

section Unsigned

variable {h x y : Nat}

/-- Integers below a modulus are congruent only if they are equal. -/
theorem natCast_modEq_iff {k l m : Nat} (hk : k < m) (hl : l < m) :
    (k : Int) ≡ l [ZMOD m] ↔ k = l := by
  rw [Int.natCast_modEq_iff]
  exact ⟨fun hmod => hmod.eq_of_lt_of_lt hk hl, fun heq => heq ▸ rfl⟩

/-- And a negative one is congruent to another only if both are zero. -/
theorem neg_natCast_modEq_iff {k l m : Nat} (hkl : k + l < m) :
    -(k : Int) ≡ l [ZMOD m] ↔ k = 0 ∧ l = 0 := by
  rw [Int.modEq_iff_dvd, sub_neg_eq_add, ← Nat.cast_add, Int.natCast_dvd_natCast]
  constructor
  · intro hdvd
    have hzero := Nat.eq_zero_of_dvd_of_lt hdvd (by omega)
    omega
  · rintro ⟨rfl, rfl⟩
    exact Nat.dvd_zero _

/-- A large divisor is taken for a negative one. -/
theorem tdiv_asSigned_divisor (hx : x < h) (hle : h ≤ y) (hy : y < 2 * h) :
    (asSigned h x).tdiv (asSigned h y) ≡ (x / y : Nat) [ZMOD (2 * h : Nat)] ↔ x + y < 2 * h := by
  have hquot : (asSigned h x).tdiv (asSigned h y) = -((x / (2 * h - y) : Nat) : Int) := by
    rw [asSigned_of_lt hx, asSigned_of_le hle hy, Int.tdiv_neg]
    rfl
  have hlt := Nat.div_le_self x (2 * h - y)
  have hzero : x / y = 0 := Nat.div_eq_of_lt (by omega)
  rw [hquot, hzero, neg_natCast_modEq_iff (by omega), Nat.div_eq_zero_iff]
  omega

/-- A large dividend is taken for a negative one. -/
theorem tdiv_asSigned_dividend (hle : h ≤ x) (hx : x < 2 * h) (hy : y < h) (h0 : y ≠ 0) :
    (asSigned h x).tdiv (asSigned h y) ≡ (x / y : Nat) [ZMOD (2 * h : Nat)] ↔ y = 1 := by
  have hquot : (asSigned h x).tdiv (asSigned h y) = -(((2 * h - x) / y : Nat) : Int) := by
    rw [asSigned_of_le hle hx, asSigned_of_lt hy, Int.neg_tdiv]
    rfl
  rw [hquot]
  by_cases hy1 : y = 1
  · subst hy1
    refine iff_of_true ?_ rfl
    rw [Nat.div_one, Nat.div_one, Int.modEq_iff_dvd]
    exact ⟨1, by omega⟩
  · have hpos : 0 < x / y := Nat.div_pos (by omega) (by omega)
    have hsum : (2 * h - x) / y + x / y < 2 * h := by
      calc (2 * h - x) / y + x / y
          ≤ (2 * h - x + x) / y := Nat.div_add_div_le_add_div
        _ ≤ 2 * h / 2 := by
          rw [Nat.sub_add_cancel hx.le]
          exact Nat.div_le_div_left (by omega) (by decide)
        _ < 2 * h := by omega
    rw [neg_natCast_modEq_iff hsum]
    exact iff_of_false (fun hzero => hpos.ne' hzero.2) hy1

/-- Both are. -/
theorem tdiv_asSigned_both (hlex : h ≤ x) (hx : x < 2 * h) (hley : h ≤ y) (hy : y < 2 * h) :
    (asSigned h x).tdiv (asSigned h y) ≡ (x / y : Nat) [ZMOD (2 * h : Nat)] ↔ x = y := by
  have hquot : (asSigned h x).tdiv (asSigned h y) = ((2 * h - x) / (2 * h - y) : Nat) := by
    rw [asSigned_of_le hlex hx, asSigned_of_le hley hy, Int.neg_tdiv, Int.tdiv_neg, neg_neg]
    rfl
  have hlt := Nat.div_le_self (2 * h - x) (2 * h - y)
  have hlt' := Nat.div_le_self x y
  rw [hquot, natCast_modEq_iff (by omega) (by omega)]
  rcases Nat.lt_trichotomy x y with hxy | rfl | hxy
  · have hpos : 0 < (2 * h - x) / (2 * h - y) := Nat.div_pos (by omega) (by omega)
    rw [Nat.div_eq_of_lt hxy]
    exact iff_of_false hpos.ne' hxy.ne
  · rw [Nat.div_self (by omega), Nat.div_self (by omega)]
    exact iff_of_true rfl rfl
  · have hpos : 0 < x / y := Nat.div_pos (by omega) (by omega)
    rw [Nat.div_eq_of_lt (show 2 * h - x < 2 * h - y by omega)]
    exact iff_of_false hpos.ne hxy.ne'

/-- Where an unsigned quotient can be computed on signed integers. -/
theorem tdiv_asSigned_iff (hx : x < 2 * h) (hy : y < 2 * h) (h0 : y ≠ 0) :
    (asSigned h x).tdiv (asSigned h y) ≡ (x / y : Nat) [ZMOD (2 * h : Nat)] ↔
      x < h ∧ y < h ∨ h ≤ y ∧ x + y < 2 * h ∨ y = 1 ∨ x = y := by
  rcases Nat.lt_or_ge x h with hxh | hxh
  · rcases Nat.lt_or_ge y h with hyh | hyh
    · rw [asSigned_of_lt hxh, asSigned_of_lt hyh]
      exact iff_of_true rfl (.inl ⟨hxh, hyh⟩)
    · rw [tdiv_asSigned_divisor hxh hyh hy]
      omega
  · rcases Nat.lt_or_ge y h with hyh | hyh
    · rw [tdiv_asSigned_dividend hxh hx hyh h0]
      omega
    · rw [tdiv_asSigned_both hxh hx hyh hy]
      omega

end Unsigned

end Fasm
