import Fasm.Jit.Denote
import Fasm.Lib.Focus
import Fasm.Vm.Instr
import Fasm.Vm.ValuePanics

/-!
# Operations in registers

For each operation that the JIT compiles, the operands on which its machine instruction
does what the interpreter does, and the proof that it then does.  The JIT computes every
integer type in one of two widths, so an operation agrees with the interpreter's where
its 64-bit result wraps to the same number at the FASM type as in the register.
-/

namespace Fasm

/-! ## Binary operations -/

namespace BinOp

/-- The operation of the interpreter. -/
def interp : BinOp → Value → Value → Except Stop Value
  | add => checked Value.add
  | sub => checked Value.sub
  | mul => checked Value.mul
  | div => divChecked Value.div
  | mod => divChecked Value.rem
  | and => fun a b => orFault (a.bitAnd b) .typeMismatch
  | or => fun a b => orFault (a.bitOr b) .typeMismatch
  | xor => fun a b => orFault (a.bitXor b) .typeMismatch
  | shl => shifted Value.shl
  | shr => shifted Value.shr

/-- The 64-bit result, before it is wrapped. -/
def num (op : BinOp) (t : IntTy) (x y : U64) : U64 :=
  match op with
  | add => x + y
  | sub => x - y
  | mul => x * y
  | div => x.sdiv y
  | mod => x.srem y
  | and => x &&& y
  | or => x ||| y
  | xor => x ^^^ y
  | shl => x <<< (y.toNat % t.width)
  | shr => if t.signed then x.sshiftRight (y.toNat % t.width) else x >>> (y.toNat % t.width)

/-- Operands of a type `t` on which a register of type `m` gives the interpreter's result: no
overflow that one of the types wraps and the other does not, no division that traps or whose
divisor is cut off, no shift count that the widths reduce differently, and no logical shift of
a number that is negative in the register. -/
def IntAgrees (op : BinOp) (m : JitType) (t : IntTy) (x y : U64) : Prop :=
  match op with
  | add | sub | mul | and | or | xor => m.Wraps t (op.num t x y)
  | div | mod => m.Fits y ∧ ¬ (x = m.minNum ∧ y = -1) ∧ m.Wraps t (op.num t x y)
  | shl => y.toNat % m.width = y.toNat % t.width ∧ m.Wraps t (op.num t x y)
  | shr => y.toNat % m.width = y.toNat % t.width ∧ (t.signed = false → x.msb = false)

/-- `f32` operands on which rounding to `f64` first makes no difference. -/
def FloatAgrees (op : BinOp) (x y : U32) : Prop :=
  match op with
  | add => f32Add x y = f64AsF32 (f64Add (f32AsF64 x) (f32AsF64 y))
  | sub => f32Sub x y = f64AsF32 (f64Sub (f32AsF64 x) (f32AsF64 y))
  | mul => f32Mul x y = f64AsF32 (f64Mul (f32AsF64 x) (f32AsF64 y))
  | div => f32Div x y = f64AsF32 (f64Div (f32AsF64 x) (f32AsF64 y))
  | _ => True

/-- Operands on which the operation at a machine type gives the interpreter's result. -/
def Agrees (op : BinOp) (m : JitType) (a b : Value) : Prop :=
  match a, b with
  | .int t x, .int t' y => op.IntAgrees m t (asI64 t x) (asI64 t' y)
  | .float32 x, .float32 y => op.FloatAgrees x y
  | _, _ => True

variable {op : BinOp} {a b r : Value}

/-- The float operation of an operation, if it has one. -/
def f64Num : BinOp → Option (U64 → U64 → U64)
  | add => some f64Add
  | sub => some f64Sub
  | mul => some f64Mul
  | div => some f64Div
  | mod => some f64Rem
  | _ => none

/-- What the interpreter makes of operands on which the operation succeeds. -/
inductive Result (op : BinOp) : Value → Value → Value → Prop
  | int {t t' : IntTy} {x : BitVec t.width} {y : BitVec t'.width}
    (hdiv : op = .div ∨ op = .mod → asI64 t' y ≠ 0) :
    Result op (.int t x) (.int t' y)
      (.int t ((op.num t (asI64 t x) (asI64 t' y)).setWidth t.width))
  | float32 {g : U64 → U64 → U64} (hop : op.f64Num = some g) (x y : U32) :
    Result op (.float32 x) (.float32 y) (.float32 (f64AsF32 (g (f32AsF64 x) (f32AsF64 y))))
  | float64 {g : U64 → U64 → U64} (hop : op.f64Num = some g) (x y : U64) :
    Result op (.float64 x) (.float64 y) (.float64 (g x y))

theorem checked_eq_ok {f : Value → Value → Except Panic (Option Value)}
    (h : checked f a b = .ok r) : f a b = .ok (some r) := by
  obtain ⟨o, ho, hr⟩ := bind_eq_ok h
  rw [orFault_eq_ok.mp hr] at ho
  cases hf : f a b with
  | error x => rw [hf] at ho; cases ho
  | ok o' =>
    rw [hf] at ho
    cases ho
    rfl

theorem divChecked_eq_ok {f : Value → Value → Except Panic (Option Value)}
    (h : divChecked f a b = .ok r) : b.isTruthy ∧ f a b = .ok (some r) := by
  unfold divChecked at h
  split at h
  case isTrue hb => exact ⟨hb, checked_eq_ok h⟩
  case isFalse => cases h

/-- Arithmetic that succeeds. -/
theorem result_numeric {f : U64 → U64 → Except Panic U64} {g : U64 → U64 → U64}
    (h : numericOp f g a b = .ok (some r)) (hf64 : op.f64Num = some g)
    (hf : ∀ t x y n, f x y = .ok n → n = op.num t x y)
    (hdiv : op = .div ∨ op = .mod → b.isTruthy) : op.Result a b r := by
  unfold numericOp at h
  split at h
  case h_1 t x t' y =>
    split at h
    case isFalse => cases h
    case isTrue ht =>
      subst ht
      obtain ⟨n, hn, hr⟩ := bind_eq_ok h
      cases hr
      rw [hf t _ _ n hn]
      refine .int fun hop hzero => ?_
      obtain rfl := asI64_eq_zero hzero
      exact absurd (hdiv hop) (by simp [Value.isTruthy])
  case h_2 x y => cases h; exact .float32 hf64 x y
  case h_3 x y => cases h; exact .float64 hf64 x y
  case h_4 => cases h

/-- A bitwise operation that succeeds. -/
theorem result_bitwise {f : U64 → U64 → U64} (h : orFault (bitwiseOp f a b) .typeMismatch = .ok r)
    (hf : ∀ t x y, f x y = op.num t x y) (hop : ¬ (op = .div ∨ op = .mod)) :
    op.Result a b r := by
  unfold bitwiseOp at h
  split at h
  case h_1 t x t' y =>
    split at h
    case isFalse => cases h
    case isTrue ht =>
      subst ht
      cases h
      rw [hf t]
      exact .int fun h => absurd h hop
  case h_2 => cases h

theorem i64Div_eq_ok {x y n : U64} (h : i64Div x y = .ok n) : n = x.sdiv y := by
  unfold i64Div at h
  split at h
  · cases h
  · split at h
    · cases h
    · cases h; rfl

theorem i64Rem_eq_ok {x y n : U64} (h : i64Rem x y = .ok n) : n = x.srem y := by
  unfold i64Rem at h
  split at h
  · cases h
  · split at h
    · cases h
    · cases h; rfl

/-- The shift count is taken modulo a width that divides `2 ^ 32`. -/
theorem shift_count (t : IntTy) (y : U64) :
    (y.setWidth 32).toNat % t.width = y.toNat % t.width := by
  rw [BitVec.toNat_setWidth]
  exact Nat.mod_mod_of_dvd _ (by cases t <;> decide)

/-- Shifting right keeps the number of a signed integer. -/
theorem asI64_sshiftRight {t : IntTy} (ht : t.signed) (x : BitVec t.width) (k : Nat) :
    asI64 t (x.sshiftRight k) = (asI64 t x).sshiftRight k := by
  rw [asI64, asI64, if_pos ht, if_pos ht]
  apply BitVec.eq_of_toInt_eq
  rw [BitVec.toInt_signExtend_of_le t.width_le, BitVec.toInt_sshiftRight,
    BitVec.toInt_sshiftRight, BitVec.toInt_signExtend_of_le t.width_le]

/-- Shifting right keeps the number of an unsigned integer. -/
theorem asI64_ushiftRight {t : IntTy} (ht : t.signed = false) (x : BitVec t.width) (k : Nat) :
    asI64 t (x >>> k) = asI64 t x >>> k := by
  rw [asI64, asI64, if_neg (by simp [ht]), if_neg (by simp [ht]),
    BitVec.setWidth_ushiftRight t.width_le]

theorem result_shift (hop : op = .shl ∨ op = .shr) (h : op.interp a b = .ok r) :
    op.Result a b r := by
  have hnot : ¬ (op = .div ∨ op = .mod) := by rcases hop with rfl | rfl <;> simp
  cases b with
  | int t' y =>
    cases a with
    | int t x =>
      have hcount := shift_count t (asI64 t' y)
      have hr : r = .int t ((op.num t (asI64 t x) (asI64 t' y)).setWidth t.width) := by
        rcases hop with rfl | rfl
        · have hshl : Value.shl (.int t x) ((asI64 t' y).setWidth 32) = some r := orFault_eq_ok.mp h
          simp only [Value.shl, hcount] at hshl
          split at hshl
          case isTrue => cases hshl
          case isFalse =>
            cases hshl
            rw [num, BitVec.setWidth_shiftLeft_of_le t.width_le, setWidth_asI64]
        · have hshr : Value.shr (.int t x) ((asI64 t' y).setWidth 32) = some r := orFault_eq_ok.mp h
          simp only [Value.shr, hcount] at hshr
          split at hshr
          case isTrue => cases hshr
          case isFalse =>
            cases hshr
            cases ht : t.signed with
            | true => simp only [num, ht, if_true, ← asI64_sshiftRight ht, setWidth_asI64]
            | false =>
              simp only [num, ht, Bool.false_eq_true, if_false, ← asI64_ushiftRight ht,
                setWidth_asI64]
      rw [hr]
      exact .int fun h => absurd h hnot
    | _ => rcases hop with rfl | rfl <;> cases h
  | _ => rcases hop with rfl | rfl <;> cases h

/-- What the interpreter makes of the operands. -/
theorem interp_result (h : op.interp a b = .ok r) : op.Result a b r := by
  cases op with
  | add => exact result_numeric (checked_eq_ok h) rfl (by rintro _ _ _ _ ⟨⟩; rfl) (by simp)
  | sub => exact result_numeric (checked_eq_ok h) rfl (by rintro _ _ _ _ ⟨⟩; rfl) (by simp)
  | mul => exact result_numeric (checked_eq_ok h) rfl (by rintro _ _ _ _ ⟨⟩; rfl) (by simp)
  | div =>
    obtain ⟨hb, h⟩ := divChecked_eq_ok h
    exact result_numeric h rfl (fun _ _ _ _ => i64Div_eq_ok) fun _ => hb
  | mod =>
    obtain ⟨hb, h⟩ := divChecked_eq_ok h
    exact result_numeric h rfl (fun _ _ _ _ => i64Rem_eq_ok) fun _ => hb
  | and | or | xor => exact result_bitwise h (fun _ _ _ => rfl) (by simp)
  | shl => exact result_shift (.inl rfl) h
  | shr => exact result_shift (.inr rfl) h

variable {inst : BinaryInst} {m mb : JitType} {ab : BitVec m.width}
  {bb : BitVec mb.width}

/-- Where the operands agree, so does the wrapped result. -/
theorem IntAgrees.wraps {t : IntTy} {x : BitVec t.width} {y : U64} (hx : m.Fits (asI64 t x))
    (h : op.IntAgrees m t (asI64 t x) y) : m.Wraps t (op.num t (asI64 t x) y) := by
  cases op with
  | add | sub | mul | and | or | xor => exact h
  | div | mod => exact h.2.2
  | shl => exact h.2
  | shr =>
    obtain ⟨-, hmsb⟩ := h
    have hfits := (setWidth_sshiftRight hx (y.toNat % t.width)).2
    cases ht : t.signed with
    | true =>
      simp only [JitType.Wraps, num, ht, if_true]
      rw [hfits, ← asI64_sshiftRight ht, setWidth_asI64]
    | false =>
      rw [BitVec.sshiftRight_eq_of_msb_false (hmsb ht)] at hfits
      simp only [JitType.Wraps, num, ht, Bool.false_eq_true, if_false]
      rw [hfits, ← asI64_ushiftRight ht, setWidth_asI64]

/-- Both widths of a register divide `2 ^ 32`. -/
theorem machine_count (m : JitType) (y : U64) :
    (y.setWidth m.width).toNat % m.width = y.toNat % m.width := by
  rw [BitVec.toNat_setWidth]
  exact Nat.mod_mod_of_dvd _ (by cases m <;> decide)

/-- The machine instruction on registers that hold numbers. -/
theorem eval_int (abi : Abi) (hinst : op.inst m = some inst) (hm : m.isInt) {t : IntTy} {x y : U64}
    (hx : m.Fits x) (hdiv : op = .div ∨ op = .mod → y ≠ 0) (hag : op.IntAgrees m t x y) :
    inst.eval abi m (x.setWidth m.width) (y.setWidth m.width) =
      some ((op.num t x y).setWidth m.width) := by
  have hle := m.width_le
  cases op with
  | add =>
    simp only [BinOp.inst, hm, if_true, Option.some.injEq] at hinst
    subst hinst
    rw [BinaryInst.eval, num, BitVec.setWidth_add x y hle]
  | sub =>
    simp only [BinOp.inst, hm, if_true, Option.some.injEq] at hinst
    subst hinst
    rw [BinaryInst.eval, num, BitVec.sub_eq_add_neg, BitVec.sub_eq_add_neg,
      BitVec.setWidth_add x (-y) hle, BitVec.setWidth_neg_of_le hle]
  | mul =>
    simp only [BinOp.inst, hm, if_true, Option.some.injEq] at hinst
    subst hinst
    rw [BinaryInst.eval, num, BitVec.setWidth_mul x y hle]
  | div =>
    simp only [BinOp.inst, hm, if_true, Option.some.injEq] at hinst
    subst hinst
    obtain ⟨hy, hmin, -⟩ := hag
    have hne : ¬ (y.setWidth m.width = 0 ∨
        x.setWidth m.width = .intMin m.width ∧ y.setWidth m.width = -1) := by
      rw [setWidth_eq_zero hy, ← minNum_eq hx, setWidth_eq_neg_one hy, not_or]
      exact ⟨hdiv (.inl rfl), hmin⟩
    rw [BinaryInst.eval, if_neg hne, setWidth_sdiv hx hy hmin, num]
  | mod =>
    simp only [BinOp.inst, hm, if_true, Option.some.injEq] at hinst
    subst hinst
    obtain ⟨hy, hmin, -⟩ := hag
    have hne : ¬ (y.setWidth m.width = 0 ∨ abi.sremTraps ∧
        x.setWidth m.width = .intMin m.width ∧ y.setWidth m.width = -1) := by
      rw [setWidth_eq_zero hy, ← minNum_eq hx, setWidth_eq_neg_one hy, not_or]
      exact ⟨hdiv (.inr rfl), fun h => hmin h.2⟩
    rw [BinaryInst.eval, if_neg hne, setWidth_srem hx hy, num]
  | and => cases hinst; rw [BinaryInst.eval, num, BitVec.setWidth_and]
  | or => cases hinst; rw [BinaryInst.eval, num, BitVec.setWidth_or]
  | xor => cases hinst; rw [BinaryInst.eval, num, BitVec.setWidth_xor]
  | shl =>
    cases hinst
    rw [BinaryInst.eval, num, machine_count, hag.1, BitVec.setWidth_shiftLeft_of_le hle]
  | shr =>
    cases hinst
    obtain ⟨hcount, hmsb⟩ := hag
    rw [BinaryInst.eval, num, machine_count, hcount, (setWidth_sshiftRight hx _).1]
    split
    case isTrue => rfl
    case isFalse ht =>
      rw [BitVec.sshiftRight_eq_of_msb_false (hmsb (Bool.eq_false_iff.mpr ht))]

/-- **Binary operations.**  On registers that denote the operands the machine instruction gives
a register that denotes the interpreter's result. -/
theorem eval_denotes (abi : Abi) (hinst : op.inst m = some inst) (ha : Denotes m ab a)
    (hb : Denotes mb bb b) (hr : op.interp a b = .ok r) (hag : op.Agrees m a b) :
    ∃ res, inst.eval abi m ab (convertBits mb m bb) = some res ∧ Denotes m res r := by
  cases interp_result hr with
  | @int t t' x y hdiv =>
    have hx : (Value.int t x).number = some (asI64 t x) := rfl
    have hm := ha.isInt hx
    have hfits := ha.fits hx
    rw [ha.bits_eq hx, convertBits_number hb rfl hm, eval_int abi hinst hm hfits hdiv hag]
    exact ⟨_, rfl, denotes_wraps hm (IntAgrees.wraps hfits hag)⟩
  | float32 hop x y =>
    cases m with
    | i32 | i64 | f64 => cases ha
    | f32 =>
      cases mb with
      | i32 | i64 | f64 => cases hb
      | f32 =>
        cases ha
        cases hb
        cases op with
        | add | sub | mul | div =>
          cases hinst
          cases hop
          exact ⟨_, rfl, congrArg Value.float32 hag.symm⟩
        | mod => cases hinst
        | _ => cases hop
  | float64 hop x y =>
    cases m with
    | i32 | i64 | f32 => cases ha
    | f64 =>
      cases mb with
      | i32 | i64 | f32 => cases hb
      | f64 =>
        cases ha
        cases hb
        cases op with
        | add | sub | mul | div =>
          cases hinst
          cases hop
          exact ⟨_, rfl, rfl⟩
        | mod => cases hinst
        | _ => cases hop

end BinOp

/-! ## Unary operations -/

section Unary

variable {m : JitType} {ab : BitVec m.width} {a r : Value}

/-- Operands that are negated alike. -/
def NegAgrees (m : JitType) : Value → Prop
  | .int t x => m.Wraps t (-asI64 t x)
  | _ => True

/-- Operands that are complemented alike. -/
def NotAgrees (m : JitType) : Value → Prop
  | .int t x => m.Wraps t (~~~asI64 t x)
  | _ => True

theorem neg_denotes (ha : Denotes m ab a) (hr : a.neg = some r) (hag : NegAgrees m a) :
    Denotes m (if m.isInt then 0 - ab else fnegBits m ab) r := by
  unfold Value.neg at hr
  split at hr
  case h_1 t x =>
    split at hr
    case isFalse => cases hr
    case isTrue =>
      have hx : (Value.int t x).number = some (asI64 t x) := rfl
      have hm := ha.isInt hx
      have hneg : -x = (-asI64 t x).setWidth t.width := by
        rw [BitVec.setWidth_neg_of_le t.width_le, setWidth_asI64]
      have hsub : 0 - ab = (-asI64 t x).setWidth m.width := by
        rw [ha.bits_eq hx, BitVec.setWidth_neg_of_le m.width_le]
        exact BitVec.zero_sub _
      cases hr
      rw [if_pos hm, hsub, hneg]
      exact denotes_wraps hm hag
  case h_2 f =>
    cases hr
    cases m with
    | f32 => cases ha; rfl
    | i32 | i64 | f64 => cases ha
  case h_3 f =>
    cases hr
    cases m with
    | f64 => cases ha; rfl
    | i32 | i64 | f32 => cases ha
  case h_4 => cases hr

theorem not_denotes (ha : Denotes m ab a) (hr : a.bitNot = some r) (hag : NotAgrees m a) :
    Denotes m (ab ^^^ (-1 : U64).setWidth m.width) r := by
  unfold Value.bitNot at hr
  split at hr
  case h_1 t x =>
    have hx : (Value.int t x).number = some (asI64 t x) := rfl
    have hnot : ~~~x = (~~~asI64 t x).setWidth t.width := by
      rw [BitVec.setWidth_not t.width_le, setWidth_asI64]
    have hones : ab ^^^ (-1 : U64).setWidth m.width = (~~~asI64 t x).setWidth m.width := by
      rw [ha.bits_eq hx, ← BitVec.setWidth_xor]
      exact congrArg _ BitVec.xor_allOnes
    cases hr
    rw [hones, hnot]
    exact denotes_wraps (ha.isInt hx) hag
  case h_2 => cases hr

end Unary

/-! ## Comparisons -/

section Compare

variable {m mb : JitType} {ab : BitVec m.width} {bb : BitVec mb.width} {a b r : Value} {cc : IntCC}

/-- The comparison of the interpreter. -/
def IntCC.interp (cc : IntCC) (a b : Value) : Except Stop Value :=
  match cc with
  | equal => .ok (.bool (a.eqVal b))
  | notEqual => .ok (.bool !(a.eqVal b))
  | signedLessThan => compared Value.cmpLt a b
  | signedLessThanOrEqual => compared Value.cmpLte a b
  | signedGreaterThan => compared Value.cmpGt a b
  | signedGreaterThanOrEqual => compared Value.cmpGte a b

/-- A comparison gives a `BOOL`. -/
theorem IntCC.interp_bool (h : cc.interp a b = .ok r) : ∃ c, r = .bool c := by
  have hcompared {f : Value → Value → Option Bool} (h : compared f a b = .ok r) :
      ∃ c, r = .bool c := by
    unfold compared at h
    cases hf : f a b with
    | none => rw [hf] at h; cases h
    | some c => rw [hf] at h; cases h; exact ⟨c, rfl⟩
  cases cc with
  | equal | notEqual => cases h; exact ⟨_, rfl⟩
  | _ => exact hcompared h

/-- Operands that are compared alike: the JIT has a number for both, the second one is not cut
off, and `NULL` is not compared with a zero. -/
def CmpAgrees (m : JitType) (a b : Value) : Prop :=
  ∃ x y, a.number = some x ∧ b.number = some y ∧ m.Fits y ∧
    (x = y → (a = .null ↔ b = .null))

theorem number_of_numeric {x : U64} (hx : numericAsI64 a = some x) : a.number = some x := by
  cases a with
  | null => cases hx
  | _ => exact hx

theorem numeric_of_number {x : U64} (hx : a.number = some x) (hne : a ≠ .null) :
    numericAsI64 a = some x := by
  cases a with
  | null => exact absurd rfl hne
  | _ => exact hx

/-- Numbers that fit are compared alike in a register. -/
theorem IntCC.eval_setWidth {x y : U64} (hx : m.Fits x) (hy : m.Fits y) (cc : IntCC) :
    cc.eval (x.setWidth m.width) (y.setWidth m.width) = cc.eval x y := by
  have heq : (x.setWidth m.width == y.setWidth m.width) = (x == y) := by
    rw [Bool.eq_iff_iff, beq_iff_eq, beq_iff_eq, ← BitVec.toInt_inj, hx.toInt_eq, hy.toInt_eq,
      BitVec.toInt_inj]
  cases cc with
  | equal => exact heq
  | notEqual => exact congrArg (!·) heq
  | _ =>
    simp only [IntCC.eval, BitVec.slt_eq_decide, BitVec.sle_eq_decide, hx.toInt_eq, hy.toInt_eq]

/-- The interpreter compares the numbers. -/
theorem IntCC.interp_number {x y : U64} (hx : numericAsI64 a = some x)
    (hy : numericAsI64 b = some y) (cc : IntCC) : cc.interp a b = .ok (.bool (cc.eval x y)) := by
  cases cc with
  | equal => simp only [interp, Value.eqVal, hx, hy, eval]
  | notEqual => simp only [interp, Value.eqVal, hx, hy, eval, bne]
  | signedLessThan =>
    simp only [interp, compared, Value.cmpLt, numericCmp_number hx hy, orFault]; rfl
  | signedLessThanOrEqual =>
    simp only [interp, compared, Value.cmpLte, numericCmp_number hx hy, orFault]; rfl
  | signedGreaterThan =>
    simp only [interp, compared, Value.cmpGt, numericCmp_number hx hy, orFault]; rfl
  | signedGreaterThanOrEqual =>
    simp only [interp, compared, Value.cmpGte, numericCmp_number hx hy, orFault]; rfl

theorem numericCmp_null {f g : U64 → U64 → Bool} (hnull : a = .null ∨ b = .null) :
    numericCmp f g a b = none := by
  obtain rfl | rfl := hnull
  · rfl
  · cases a <;> rfl

/-- `NULL` equals no number. -/
theorem eqVal_null {x y : U64} (hx : a.number = some x) (hy : b.number = some y)
    (hnull : a = .null ∨ b = .null) (hzero : x = y → (a = .null ↔ b = .null)) :
    a.eqVal b = (x == y) := by
  by_cases hxy : x = y
  · obtain ⟨rfl, rfl⟩ : a = .null ∧ b = .null :=
      hnull.elim (fun ha => ⟨ha, (hzero hxy).mp ha⟩) fun hb => ⟨(hzero hxy).mpr hb, hb⟩
    rw [hxy, beq_self_eq_true]
    rfl
  · rw [beq_false_of_ne hxy]
    obtain rfl | rfl := hnull
    · cases b with
      | null => exact absurd (Option.some.inj (hx.symm.trans hy)) hxy
      | bool c => rfl
      | int t n => rfl
      | _ => cases hy
    · cases a with
      | null => exact absurd (Option.some.inj (hx.symm.trans hy)) hxy
      | bool c => rfl
      | int t n => rfl
      | _ => cases hx

/-- The interpreter compares the numbers, where it compares at all. -/
theorem IntCC.interp_eq {x y : U64} (hx : a.number = some x) (hy : b.number = some y)
    (hzero : x = y → (a = .null ↔ b = .null)) (hr : cc.interp a b = .ok r) :
    r = .bool (cc.eval x y) := by
  by_cases hnull : a = .null ∨ b = .null
  · have hcompared {f g : U64 → U64 → Bool} : compared (numericCmp f g) a b ≠ .ok r := by
      rw [compared, numericCmp_null hnull]
      nofun
    have heq := eqVal_null hx hy hnull hzero
    cases cc with
    | equal =>
      cases hr
      rw [heq]
      rfl
    | notEqual =>
      cases hr
      rw [heq]
      rfl
    | _ => exact absurd hr hcompared
  · rw [not_or] at hnull
    rw [IntCC.interp_number (numeric_of_number hx hnull.1) (numeric_of_number hy hnull.2)] at hr
    cases hr
    rfl

/-- A `BOOL` in a register of 32 bits. -/
theorem denotes_bool (b : Bool) : Denotes .i32 (if b then 1 else 0) (.bool b) := by
  cases b <;> exact congrArg some (by decide)

/-- **Comparisons.** -/
theorem cmp_denotes (ha : Denotes m ab a) (hb : Denotes mb bb b) (hr : cc.interp a b = .ok r)
    (hag : CmpAgrees m a b) :
    Denotes .i32 (if cc.eval ab (convertBits mb m bb) then 1 else 0) r := by
  obtain ⟨x, y, hx, hy, hfits, hzero⟩ := hag
  obtain rfl := IntCC.interp_eq hx hy hzero hr
  rw [ha.bits_eq hx, convertBits_number hb hy (ha.isInt hx), IntCC.eval_setWidth (ha.fits hx) hfits]
  exact denotes_bool _

end Compare

/-! ## Casts -/

section Cast

variable {m tm : JitType} {ab : BitVec m.width} {a r : Value} {target : FasmType}

/-- A number as the target of a cast holds it. -/
def wrapTo : FasmType → U64 → U64
  | .bool, n => if n = 0 then 0 else 1
  | .int t, n => asI64 t (n.setWidth t.width)
  | _, n => n

/-- The number that a register of the integer type `tm` holds after the conversion. -/
def regNumber (tm : JitType) : Value → Option U64
  | .float32 f => some ((saturate tm.width (f64AsI64 (f32AsF64 f))).signExtend 64)
  | .float64 f => some ((saturate tm.width (f64AsI64 f)).signExtend 64)
  | v => (numericAsI64 v).map fun x => (x.setWidth tm.width).signExtend 64

/-- Operands that are cast alike, by way of a register of type `tm`: to an integer type and to
`BOOL`, where this makes the same number of them; to `FLOAT32`, where rounding to `f64` first
makes no difference. -/
def CastAgrees (tm : JitType) (target : FasmType) (a : Value) : Prop :=
  match target with
  | .float32 =>
    match a with
    | .float32 x => f64AsF32 (f32AsF64 x) = x
    | .float64 _ => True
    | v => ∀ x, numericAsI64 v = some x → i64AsF32 x = f64AsF32 (i64AsF64 x)
  | .float64 => True
  | target => ∀ n, castI64 a = some n → regNumber tm a = some (wrapTo target n)

theorem regNumber_eq {n : U64} (htm : tm.isInt) (ha : Denotes m ab a) (hn : castI64 a = some n) :
    regNumber tm a = some ((convertBits m tm ab).signExtend 64) := by
  cases a with
  | bool | int =>
    rw [convertBits_number ha hn htm]
    exact congrArg (Option.map fun x => (x.setWidth tm.width).signExtend 64) hn
  | float32 f =>
    cases m with
    | f32 =>
      cases ha
      cases tm with
      | i32 | i64 => rfl
      | f32 | f64 => cases htm
    | i32 | i64 | f64 => cases ha
  | float64 f =>
    cases m with
    | f64 =>
      cases ha
      cases tm with
      | i32 | i64 => rfl
      | f32 | f64 => cases htm
    | i32 | i64 | f32 => cases ha
  | _ => cases hn

theorem convertBits_f32 {n : U64} (ha : Denotes m ab a) (hn : a.number = some n) :
    convertBits m .f32 ab = i64AsF32 n := by
  have hm := ha.isInt hn
  have hb := ha.number_eq hn
  cases m with
  | i32 => exact congrArg i64AsF32 hb
  | i64 => exact congrArg i64AsF32 ((BitVec.signExtend_eq ab).symm.trans hb)
  | f32 | f64 => cases hm

theorem convertBits_f64 {n : U64} (ha : Denotes m ab a) (hn : a.number = some n) :
    convertBits m .f64 ab = i64AsF64 n := by
  have hm := ha.isInt hn
  have hb := ha.number_eq hn
  cases m with
  | i32 => exact congrArg i64AsF64 hb
  | i64 => exact congrArg i64AsF64 ((BitVec.signExtend_eq ab).symm.trans hb)
  | f32 | f64 => cases hm

/-- **Casts.** -/
theorem cast_denotes (ht : JitType.fromFasm target = some tm) (ha : Denotes m ab a)
    (hr : castValue a target = .ok r) (hag : CastAgrees tm target a) :
    Denotes tm (convertBits m tm ab) r := by
  cases target with
  | bool =>
    cases ht
    obtain ⟨n, hn, rfl⟩ := Option.map_eq_some_iff.mp (orFault_eq_ok.mp hr)
    have hreg := (regNumber_eq rfl ha hn).symm.trans (hag n hn)
    show (Value.bool (n != 0)).number = _
    rw [hreg]
    by_cases hzero : n = 0 <;> simp [Value.number, numericAsI64, wrapTo, hzero]
  | int t =>
    have htm : tm.isInt := by cases t <;> cases ht <;> rfl
    obtain ⟨n, hn, rfl⟩ := Option.map_eq_some_iff.mp (orFault_eq_ok.mp hr)
    rw [denotes_int htm, ← regNumber_eq htm ha hn]
    exact (hag n hn).symm
  | float32 =>
    cases ht
    obtain ⟨f, hf, rfl⟩ := Option.map_eq_some_iff.mp (orFault_eq_ok.mp hr)
    cases a with
    | bool | int =>
      cases hf
      refine congrArg Value.float32 ?_
      rw [convertBits_f32 ha rfl]
      exact (hag _ rfl).symm
    | float32 x =>
      cases hf
      cases m with
      | f32 => cases ha; exact congrArg Value.float32 hag
      | i32 | i64 | f64 => cases ha
    | float64 x =>
      cases hf
      cases m with
      | f64 => cases ha; rfl
      | i32 | i64 | f32 => cases ha
    | _ => cases hf
  | float64 =>
    cases ht
    obtain ⟨f, hf, rfl⟩ := Option.map_eq_some_iff.mp (orFault_eq_ok.mp hr)
    cases a with
    | bool | int =>
      cases hf
      exact congrArg Value.float64 (convertBits_f64 ha rfl).symm
    | float32 x =>
      cases hf
      cases m with
      | f32 => cases ha; rfl
      | i32 | i64 | f64 => cases ha
    | float64 x =>
      cases hf
      cases m with
      | f64 => cases ha; rfl
      | i32 | i64 | f32 => cases ha
    | _ => cases hf
  | _ => cases hr

end Cast

end Fasm
