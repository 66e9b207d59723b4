import Fasm.Lib.MachineInt
import Fasm.Vm.Gives
import Fasm.Vm.ResultTypes

/-!
# Integer arithmetic

`ADD`, `SUB`, `MUL`, the bitwise operations and `CAST` take every integer type through one `i64`
(or `u64`) computation.  Widening an integer gives the pattern of the same integer, but for
`UINT64`, where it gives that of a congruent one; the computation and the truncation at the end
respect congruence.  So the result is the right one modulo the width of the type.
-/

namespace Fasm

/-- The integer that a value of type `t` represents. -/
def IntTy.toInt (t : IntTy) (n : BitVec t.width) : Int := intOf t.signed n

variable {t : IntTy} {x y : BitVec t.width}

/-! ## Widening -/

/-- `as i64` gives the pattern of the integer. -/
theorem asI64_eq_ofInt (t : IntTy) (n : BitVec t.width) :
    asI64 t n = BitVec.ofInt 64 (t.toInt n) := widen_eq_ofInt n

/-- All integers but the large ones of `UINT64` survive `as i64`. -/
theorem toInt_asI64 {n : BitVec t.width} (h : t.toInt n < 2 ^ 63) :
    (asI64 t n).toInt = t.toInt n := by
  refine intOf_widen (t := true) (by decide) ?_ h
  have hmin := minInt_le_intOf (s := t.signed) n
  refine le_trans ?_ hmin
  cases t <;> decide

/-- Only `UINT64` has integers from `2 ^ 63` on. -/
theorem toInt_lt (h : t ≠ .uint64) (n : BitVec t.width) : t.toInt n < 2 ^ 63 := by
  have hmax := intOf_lt_maxInt (s := t.signed) n
  refine lt_of_lt_of_le hmax ?_
  cases t with
  | uint64 => exact absurd rfl h
  | _ => decide

/-- And these are taken for negative ones. -/
theorem toInt_asI64_uint64 (n : BitVec IntTy.uint64.width) :
    (asI64 .uint64 n).toInt = asSigned (2 ^ 63) n.toNat := by
  have hsame : asI64 .uint64 n = n := setWidth_asI64 .uint64 n
  have hread : (asI64 .uint64 n).toInt =
      if 2 * n.toNat < 2 ^ 64 then (n.toNat : Int) else n.toNat - (2 ^ 64 : Nat) := by
    rw [hsame]
    rfl
  rw [hread, asSigned]
  split
  · rw [if_pos (by omega)]
  · rw [if_neg (by omega)]
    rfl

/-- `as_u32` of an integer operand. -/
theorem asU32_int (u : IntTy) (m : BitVec u.width) :
    asU32 (.int u m) = .ok (.ofInt 32 (u.toInt m)) := by
  show Except.ok ((asI64 u m).setWidth 32) = _
  rw [asI64_eq_ofInt, setWidth_ofInt (by decide)]

/-! ## Operations of two integers -/

/-- An operation on `i64` that respects congruence. -/
structure Modular (op : U64 → U64 → U64) (f : Int → Int → Int) : Prop where
  ofInt : ∀ i j, op (BitVec.ofInt 64 i) (BitVec.ofInt 64 j) = BitVec.ofInt 64 (f i j)
  congr : ∀ (n : Nat) {i i' j j' : Int}, i ≡ i' [ZMOD 2 ^ n] → j ≡ j' [ZMOD 2 ^ n] →
    f i j ≡ f i' j' [ZMOD 2 ^ n]

theorem modular_add : Modular (· + ·) (· + ·) :=
  ⟨fun i j => (BitVec.ofInt_add i j).symm, fun _ => Int.ModEq.add⟩

theorem modular_mul : Modular (· * ·) (· * ·) :=
  ⟨fun i j => (BitVec.ofInt_mul i j).symm, fun _ => Int.ModEq.mul⟩

theorem modular_sub : Modular (· - ·) (· - ·) := by
  refine ⟨fun i j => ?_, fun _ => Int.ModEq.sub⟩
  show BitVec.ofInt 64 i - BitVec.ofInt 64 j = BitVec.ofInt 64 (i - j)
  rw [Int.sub_eq_add_neg, BitVec.ofInt_add, BitVec.ofInt_neg, BitVec.sub_eq_add_neg]

/-- What `numeric_op` makes of two integers of one type. -/
theorem checked_numericOp {op : U64 → U64 → U64} {f : Int → Int → Int} (h : Modular op f)
    (g : U64 → U64 → U64) (x y : BitVec t.width) :
    checked (numericOp (fun a b => .ok (op a b)) g) (.int t x) (.int t y) =
      .ok (.int t (.ofInt t.width (f (t.toInt x) (t.toInt y)))) := by
  have hwidth : (op (asI64 t x) (asI64 t y)).setWidth t.width =
      .ofInt t.width (f (t.toInt x) (t.toInt y)) := by
    rw [asI64_eq_ofInt, asI64_eq_ofInt, h.ofInt, setWidth_ofInt t.width_le]
  rw [← hwidth]
  simp only [checked, numericOp, if_true]
  rfl

/-- The opcodes whose results are sums, differences and products. -/
inductive Opcode.Arithmetic : Opcode → (Int → Int → Int) → Prop
  | add : Arithmetic .add (· + ·)
  | sub : Arithmetic .sub (· - ·)
  | mul : Arithmetic .mul (· * ·)

namespace Opcode.Arithmetic

variable {o : Opcode} {f : Int → Int → Int}

/-- The result is the pattern of the sum, the difference or the product. -/
theorem gives (h : o.Arithmetic f) (x y : BitVec t.width) :
    Gives o.into [.int t x, .int t y]
      (.ok (.int t (.ofInt t.width (f (t.toInt x) (t.toInt y))))) := by
  cases h with
  | add =>
    apply (gives_add _ _).of_eq
    exact checked_numericOp modular_add f64Add x y
  | sub =>
    apply (gives_sub _ _).of_eq
    exact checked_numericOp modular_sub f64Sub x y
  | mul =>
    apply (gives_mul _ _).of_eq
    exact checked_numericOp modular_mul f64Mul x y

theorem congr (h : o.Arithmetic f) (n : Nat) {i i' j j' : Int} (hi : i ≡ i' [ZMOD 2 ^ n])
    (hj : j ≡ j' [ZMOD 2 ^ n]) : f i j ≡ f i' j' [ZMOD 2 ^ n] := by
  cases h with
  | add => exact hi.add hj
  | sub => exact hi.sub hj
  | mul => exact hi.mul hj

end Opcode.Arithmetic

/-- What `bitwise_op` makes of two integers of one type. -/
theorem bitwiseOp_int {op : U64 → U64 → U64} {f : BitVec t.width → BitVec t.width → BitVec t.width}
    (h : ∀ a b : U64, (op a b).setWidth t.width = f (a.setWidth t.width) (b.setWidth t.width))
    (x y : BitVec t.width) : bitwiseOp op (.int t x) (.int t y) = some (.int t (f x y)) := by
  simp only [bitwiseOp, if_true, h, setWidth_asI64]

/-! ## Operands of different types -/

theorem numericOp_mismatch {f : U64 → U64 → Except Panic U64} {g : U64 → U64 → U64} {a b : Value}
    (h : a.fasmType ≠ b.fasmType) : numericOp f g a b = .ok none := by
  unfold numericOp
  split
  · rw [if_neg]
    rintro rfl
    exact h rfl
  · exact absurd rfl h
  · exact absurd rfl h
  · rfl

theorem bitwiseOp_mismatch {op : U64 → U64 → U64} {a b : Value} (h : a.fasmType ≠ b.fasmType) :
    bitwiseOp op a b = none := by
  unfold bitwiseOp
  split
  · rw [if_neg]
    rintro rfl
    exact h rfl
  · rfl

/-- The opcodes that want two operands of one type. -/
theorem gives_mismatch {a b : Value} (h : a.fasmType ≠ b.fasmType) {o : Opcode}
    (ho : o ∈ [.add, .sub, .mul, .and, .or, .xor]) :
    Gives o.into [a, b] (.error (.fault .typeMismatch)) := by
  have harith (f g) : checked (numericOp f g) a b = .error (.fault .typeMismatch) := by
    unfold checked
    rw [numericOp_mismatch h]
    rfl
  have hbits (op) : orFault (bitwiseOp op a b) .typeMismatch = .error (.fault .typeMismatch) := by
    rw [bitwiseOp_mismatch h]
    rfl
  simp only [List.mem_cons, List.not_mem_nil, or_false] at ho
  rcases ho with rfl | rfl | rfl | rfl | rfl | rfl
  · exact (gives_add a b).of_eq (harith _ _)
  · exact (gives_sub a b).of_eq (harith _ _)
  · exact (gives_mul a b).of_eq (harith _ _)
  · exact (gives_and a b).of_eq (hbits _)
  · exact (gives_or a b).of_eq (hbits _)
  · exact (gives_xor a b).of_eq (hbits _)

/-- **Modular arithmetic.**  On two integers of one type, sums, differences, products and
negations are right modulo the width of the type, and bitwise operations act on the patterns;
operands of different types are refused. -/
theorem arithmetic_modular (t : IntTy) (x y : BitVec t.width) :
    (∃ r, Gives Opcode.add.into [.int t x, .int t y] (.ok (.int t r)) ∧
      t.toInt r ≡ t.toInt x + t.toInt y [ZMOD 2 ^ t.width]) ∧
    (∃ r, Gives Opcode.sub.into [.int t x, .int t y] (.ok (.int t r)) ∧
      t.toInt r ≡ t.toInt x - t.toInt y [ZMOD 2 ^ t.width]) ∧
    (∃ r, Gives Opcode.mul.into [.int t x, .int t y] (.ok (.int t r)) ∧
      t.toInt r ≡ t.toInt x * t.toInt y [ZMOD 2 ^ t.width]) ∧
    (t.signed = true → ∃ r, Gives Opcode.neg.into [.int t x] (.ok (.int t r)) ∧
      t.toInt r ≡ -t.toInt x [ZMOD 2 ^ t.width]) ∧
    Gives Opcode.and.into [.int t x, .int t y] (.ok (.int t (x &&& y))) ∧
    Gives Opcode.or.into [.int t x, .int t y] (.ok (.int t (x ||| y))) ∧
    Gives Opcode.xor.into [.int t x, .int t y] (.ok (.int t (x ^^^ y))) ∧
    Gives Opcode.not.into [.int t x] (.ok (.int t (~~~x))) ∧
    ∀ a b : Value, a.fasmType ≠ b.fasmType → ∀ o ∈ [Opcode.add, .sub, .mul, .and, .or, .xor],
      Gives o.into [a, b] (.error (.fault .typeMismatch)) := by
  have hmod {o : Opcode} {f : Int → Int → Int} (h : o.Arithmetic f) :
      ∃ r, Gives o.into [.int t x, .int t y] (.ok (.int t r)) ∧
        t.toInt r ≡ f (t.toInt x) (t.toInt y) [ZMOD 2 ^ t.width] :=
    ⟨_, h.gives x y, intOf_ofInt_modEq _⟩
  refine ⟨hmod .add, hmod .sub, hmod .mul, fun hsigned => ⟨-x, ?_, ?_⟩, ?_, ?_, ?_, ?_,
    fun a b h o ho => gives_mismatch h ho⟩
  · apply (gives_neg _).of_eq
    rw [Value.neg, if_pos hsigned]
    rfl
  · have hneg : -x = BitVec.ofInt t.width (-t.toInt x) := by
      rw [BitVec.ofInt_neg, IntTy.toInt, ofInt_intOf]
    rw [hneg]
    exact intOf_ofInt_modEq _
  · exact (gives_and _ _).of_eq
      (congrArg (orFault · _) (bitwiseOp_int (fun _ _ => BitVec.setWidth_and) x y))
  · exact (gives_or _ _).of_eq
      (congrArg (orFault · _) (bitwiseOp_int (fun _ _ => BitVec.setWidth_or) x y))
  · exact (gives_xor _ _).of_eq
      (congrArg (orFault · _) (bitwiseOp_int (fun _ _ => BitVec.setWidth_xor) x y))
  · exact gives_not _

/-! ## Casts -/

/-- A cast gives the pattern of the integer in the other type. -/
theorem gives_cast_int (S T : IntTy) (n : BitVec S.width) :
    Gives (castTo (.int T)) [.int S n] (.ok (.int T (.ofInt T.width (S.toInt n)))) := by
  apply (gives_cast _ _).of_eq
  show Except.ok (Value.int T ((asI64 S n).setWidth T.width)) = _
  rw [asI64_eq_ofInt, setWidth_ofInt T.width_le]

/-- The cast of a pattern of an integer is a pattern of that integer, in a type that is not
wider. -/
theorem gives_cast_ofInt {S T : IntTy} (h : T.width ≤ S.width) (i : Int) :
    Gives (castTo (.int T)) [.int S (.ofInt S.width i)] (.ok (.int T (.ofInt T.width i))) := by
  have hmod : S.toInt (.ofInt S.width i) ≡ i [ZMOD 2 ^ T.width] :=
    (intOf_ofInt_modEq i).of_dvd (pow_dvd_pow 2 h)
  apply (gives_cast_int S T _).of_eq
  rw [ofInt_eq_ofInt_iff.mpr hmod]

/-- **Casts.**  A cast to a type that is not wider commutes with sums, differences and products;
a cast keeps an integer that the type has; and a cast by way of a type that is at least as wide
as the last one is the direct cast. -/
theorem cast_respects_arithmetic (S T : IntTy) :
    (T.width ≤ S.width → ∀ (x y : BitVec S.width), ∀ o ∈ [Opcode.add, .sub, .mul],
      ∃ z x' y' z', Gives o.into [.int S x, .int S y] (.ok (.int S z)) ∧
        Gives (castTo (.int T)) [.int S x] (.ok (.int T x')) ∧
        Gives (castTo (.int T)) [.int S y] (.ok (.int T y')) ∧
        Gives o.into [.int T x', .int T y'] (.ok (.int T z')) ∧
        Gives (castTo (.int T)) [.int S z] (.ok (.int T z'))) ∧
    (∀ (x : BitVec S.width) (n : BitVec T.width), T.toInt n = S.toInt x →
      Gives (castTo (.int T)) [.int S x] (.ok (.int T n))) ∧
    ∀ U : IntTy, U.width ≤ T.width → ∀ x : BitVec S.width, ∃ y z,
      Gives (castTo (.int T)) [.int S x] (.ok (.int T y)) ∧
      Gives (castTo (.int U)) [.int T y] (.ok (.int U z)) ∧
      Gives (castTo (.int U)) [.int S x] (.ok (.int U z)) := by
  refine ⟨fun hle x y => ?_, fun x n hn => ?_, fun U hle x => ?_⟩
  · have hcommutes {o : Opcode} {f : Int → Int → Int} (h : o.Arithmetic f) :
        ∃ z x' y' z', Gives o.into [.int S x, .int S y] (.ok (.int S z)) ∧
          Gives (castTo (.int T)) [.int S x] (.ok (.int T x')) ∧
          Gives (castTo (.int T)) [.int S y] (.ok (.int T y')) ∧
          Gives o.into [.int T x', .int T y'] (.ok (.int T z')) ∧
          Gives (castTo (.int T)) [.int S z] (.ok (.int T z')) := by
      refine ⟨_, _, _, _, h.gives x y, gives_cast_int S T x, gives_cast_int S T y, h.gives _ _, ?_⟩
      apply (gives_cast_ofInt hle _).of_eq
      rw [ofInt_eq_ofInt_iff.mpr]
      exact h.congr _ (intOf_ofInt_modEq _).symm (intOf_ofInt_modEq _).symm
    intro o ho
    simp only [List.mem_cons, List.not_mem_nil, or_false] at ho
    rcases ho with rfl | rfl | rfl
    · exact hcommutes .add
    · exact hcommutes .sub
    · exact hcommutes .mul
  · apply (gives_cast_int S T x).of_eq
    rw [← hn, IntTy.toInt, ofInt_intOf]
  · exact ⟨_, _, gives_cast_int S T x, gives_cast_ofInt hle _, gives_cast_int S U x⟩

end Fasm
