import Fasm.Vm.Instr

/-!
# Where value operations panic

Each value operation that can panic, with the operands on which it does: integer
division overflows, a bit index wraps past `u32::MAX`, a bit range wraps past
`u64::MAX`.
-/

namespace Fasm

/-! ## Division -/

/-- Widening to `i64` loses nothing. -/
theorem setWidth_asI64 (t : IntTy) (n : BitVec t.width) : (asI64 t n).setWidth t.width = n := by
  unfold asI64
  split
  case isFalse => rw [BitVec.setWidth_setWidth_of_le _ t.width_le, BitVec.setWidth_eq]
  case isTrue =>
    ext i hi
    have hi' : i < 64 := Nat.lt_of_lt_of_le hi t.width_le
    simp [BitVec.getElem_signExtend, hi, hi']

theorem asI64_eq_zero {t : IntTy} {n : BitVec t.width} (h : asI64 t n = 0) : n = 0 := by
  rw [← setWidth_asI64 t n, h]
  exact BitVec.setWidth_zero _ _

/-- The quotient of `a` and `b` as `i64` overflows: `i64::MIN / -1`. -/
def DivOverflow (a b : Value) : Prop :=
  ∃ t x y, a = .int t x ∧ b = .int t y ∧ asI64 t x = i64Min ∧ asI64 t y = -1

/-- An `i64` operation that panics where `i64Div` and `i64Rem` do. -/
structure PanicsAsDiv (f : U64 → U64 → Except Panic U64) : Prop where
  byZero : ∀ a, f a 0 = .error .divByZero
  overflow : f i64Min (-1) = .error .divOverflow
  else_ : ∀ a b, b ≠ 0 → ¬ (a = i64Min ∧ b = -1) → ∃ r, f a b = .ok r

theorem panicsAsDiv_div : PanicsAsDiv i64Div where
  byZero _ := rfl
  overflow := rfl
  else_ a b h₀ h := ⟨a.sdiv b, by rw [i64Div, if_neg h₀, if_neg h]⟩

theorem panicsAsDiv_rem : PanicsAsDiv i64Rem where
  byZero _ := rfl
  overflow := rfl
  else_ a b h₀ h := ⟨a.srem b, by rw [i64Rem, if_neg h₀, if_neg h]⟩

/-- An integer is truthy when its `i64` is not zero. -/
theorem isTruthy_int {t : IntTy} {n : BitVec t.width} :
    (Value.int t n).isTruthy = true ↔ asI64 t n ≠ 0 := by
  have hzero : asI64 t 0 = 0 := by cases t <;> rfl
  rw [Value.isTruthy, bne_iff_ne]
  refine not_congr ⟨fun h => ?_, asI64_eq_zero⟩
  rw [h, hzero]

/-- `numericOp` stops where its integer operation does, on two integers of one type. -/
theorem numericOp_error {f : U64 → U64 → Except Panic U64} {g : U64 → U64 → U64} {a b : Value}
    {x : Panic} :
    numericOp f g a b = .error x ↔
      ∃ t m n, a = .int t m ∧ b = .int t n ∧ f (asI64 t m) (asI64 t n) = .error x := by
  constructor
  · intro h
    unfold numericOp at h
    split at h
    case h_1 t m t' n =>
      split at h
      case isTrue ht =>
        subst ht
        refine ⟨t, m, n, rfl, rfl, ?_⟩
        cases hf : f (asI64 t m) (asI64 t n) with
        | error y => rw [hf] at h; cases h; rfl
        | ok r => rw [hf] at h; cases h
      case isFalse => cases h
    all_goals cases h
  · rintro ⟨t, m, n, rfl, rfl, hf⟩
    simp only [numericOp, if_true, hf]
    rfl

/-- `DIV` and `MOD` panic on `i64::MIN` and `-1` only: a zero divisor is a fault before. -/
theorem divChecked_panics {f : U64 → U64 → Except Panic U64} (hf : PanicsAsDiv f)
    (g : U64 → U64 → U64) (a b : Value) :
    (∃ x, divChecked (numericOp f g) a b = .error (.panic x)) ↔ DivOverflow a b := by
  constructor
  · rintro ⟨x, h⟩
    unfold divChecked at h
    split at h
    case isFalse => cases h
    case isTrue htruthy =>
      cases hop : numericOp f g a b with
      | ok o =>
        simp only [checked, hop] at h
        cases o <;> cases h
      | error y =>
        obtain ⟨t, m, n, rfl, rfl, hfail⟩ := numericOp_error.mp hop
        by_cases hov : asI64 t m = i64Min ∧ asI64 t n = -1
        · exact ⟨t, m, n, rfl, rfl, hov⟩
        · obtain ⟨r, hr⟩ := hf.else_ _ _ (isTruthy_int.mp htruthy) hov
          rw [hr] at hfail
          cases hfail
  · rintro ⟨t, m, n, rfl, rfl, hm, hn⟩
    have htruthy : (Value.int t n).isTruthy = true := by
      rw [isTruthy_int, hn]
      decide
    have hop : numericOp f g (.int t m) (.int t n) = .error .divOverflow :=
      numericOp_error.mpr ⟨t, m, n, rfl, rfl, by rw [hm, hn]; exact hf.overflow⟩
    refine ⟨.divOverflow, ?_⟩
    rw [divChecked, if_pos htruthy, checked, hop]
    rfl

/-! ## Bit indices -/

theorem updateByte_error {bytes : List U8} {i : Nat} {f : U8 → U8} :
    (∃ x, updateByte bytes i f = .error x) ↔ bytes.length ≤ i := by
  unfold updateByte
  split
  case isTrue h => exact iff_of_false nofun (Nat.not_le_of_lt h)
  case isFalse h => exact iff_of_true ⟨_, rfl⟩ (Nat.le_of_not_lt h)

/-- Setting or flipping the last bit, where its byte is not there yet: growing wraps. -/
def BitOverflow (b : FasmBitset) (idx : U32) : Prop :=
  idx = 0xFFFFFFFF ∧ b.bytes.length ≤ 536870911

theorem updateGrown_error (b : FasmBitset) (idx : U32) (f : U8 → U8) :
    (∃ x, b.updateGrown idx f = .error x) ↔ BitOverflow b idx := by
  have hbind {b' : FasmBitset} : (∃ x, (do
      return { b' with bytes := ← updateByte b'.bytes (idx.toNat / 8) f } :
        Except Panic FasmBitset) = .error x) ↔ b'.bytes.length ≤ idx.toNat / 8 := by
    rw [← updateByte_error (f := f)]
    cases updateByte b'.bytes (idx.toNat / 8) f with
    | ok a => exact iff_of_false nofun nofun
    | error x => exact iff_of_true ⟨x, rfl⟩ ⟨x, rfl⟩
  rw [FasmBitset.updateGrown, hbind]
  unfold BitOverflow
  by_cases hidx : idx = 0xFFFFFFFF
  · subst hidx
    have hbyte : BitVec.toNat (4294967295 : U32) / 8 = 536870911 := rfl
    rw [hbyte]
    split
    case isTrue h => simp [FasmBitset.growTo, divCeil8, h]
    case isFalse h => simp [h]
  · have hlt : idx.toNat + 1 < 2 ^ 32 := by
      have := idx.isLt
      have hne : idx.toNat ≠ 0xFFFFFFFF := fun h => hidx (BitVec.eq_of_toNat_eq h)
      omega
    have hsucc : (idx + 1).toNat = idx.toNat + 1 := by
      rw [BitVec.toNat_add]
      exact Nat.mod_eq_of_lt hlt
    refine iff_of_false ?_ fun h => hidx h.1
    split
    case isTrue h =>
      simp only [FasmBitset.growTo, length_growBytes, divCeil8, hsucc]
      omega
    case isFalse h => exact h

/-! ## Bit ranges -/

/-- A bit range ends past `u64::MAX`, and its last byte is not there. -/
def RangeOverflow (bv : FasmBitvec) (start : U64) (len : U32) : Prop :=
  2 ^ 64 ≤ start.toNat + FasmBitvec.clamp len ∧ bv.bytes.length < 2 ^ 61

theorem updateByte_length {bytes bytes' : List U8} {i : Nat} {f : U8 → U8}
    (h : updateByte bytes i f = .ok bytes') : bytes'.length = bytes.length := by
  unfold updateByte at h
  split at h
  · cases h
    exact List.length_modify ..
  · cases h

/-- The loop of `write_bits` panics when one of its bits has no byte. -/
theorem writeBit_loop_error (start value : U64) (is : List Nat) (bytes : List U8) :
    (∃ x, is.foldlM (FasmBitvec.writeBit start value) bytes = .error x) ↔
      ∃ i ∈ is, bytes.length ≤ (start + .ofNat 64 i).toNat / 8 := by
  induction is generalizing bytes with
  | nil => exact iff_of_false (by rintro ⟨_, ⟨⟩⟩) (by rintro ⟨_, ⟨⟩, _⟩)
  | cons i is ih =>
    simp only [List.foldlM_cons, List.mem_cons, exists_eq_or_imp]
    cases hi : FasmBitvec.writeBit start value bytes i with
    | error x => exact iff_of_true ⟨x, rfl⟩ (.inl (updateByte_error.mp ⟨x, hi⟩))
    | ok bytes' =>
      have hle : ¬ bytes.length ≤ (start + .ofNat 64 i).toNat / 8 := by
        intro h
        obtain ⟨x, hx⟩ := updateByte_error.mpr h
        cases hi.symm.trans hx
      have ih' := ih bytes'
      rw [updateByte_length hi] at ih'
      exact ih'.trans (or_iff_right hle).symm

theorem writeBits_error (bv : FasmBitvec) (start : U64) (len : U32) (value : U64) :
    (∃ x, bv.writeBits start len value = .error x) ↔ RangeOverflow bv start len := by
  have hloop : (∃ x, bv.writeBits start len value = .error x) ↔
      ∃ i ∈ List.range (FasmBitvec.clamp len),
        (growBytes bv.bytes (divCeil8 (start + .ofNat 64 (FasmBitvec.clamp len)).toNat)).length ≤
          (start + .ofNat 64 i).toNat / 8 := by
    rw [← writeBit_loop_error start value, FasmBitvec.writeBits]
    cases List.foldlM (FasmBitvec.writeBit start value) _ _ with
    | ok a => exact iff_of_false nofun nofun
    | error x => exact iff_of_true ⟨x, rfl⟩ ⟨x, rfl⟩
  have hclamp : FasmBitvec.clamp len ≤ 64 := Nat.min_le_right _ _
  have hstart : start.toNat < 2 ^ 64 := start.isLt
  have hpos {i : Nat} (hi : i ≤ 64) :
      (start + .ofNat 64 i).toNat = (start.toNat + i) % 2 ^ 64 := by
    rw [BitVec.toNat_add, BitVec.toNat_ofNat, Nat.mod_eq_of_lt (by omega : i < 2 ^ 64)]
  rw [hloop]
  simp only [List.mem_range, length_growBytes, divCeil8, hpos hclamp]
  unfold RangeOverflow
  constructor
  · rintro ⟨i, hi, hle⟩
    rw [hpos (by omega)] at hle
    omega
  · rintro ⟨hwrap, hlen⟩
    -- the bit at `u64::MAX` is in the range
    refine ⟨2 ^ 64 - 1 - start.toNat, by omega, ?_⟩
    rw [hpos (by omega)]
    omega

end Fasm
