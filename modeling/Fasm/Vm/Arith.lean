import Fasm.Vm.Value

/-!
# Arithmetic on values

The numeric helpers of `value.rs` and the conversions at the end of `executor.rs`,
in the release profile: `+`, `-`, `*` and shifts wrap, `/` and `%` are checked.

All eight integer types go through `i64` (`as i64`, the operation, `as` back), so
each helper here is one arm where the source has eight.
-/

namespace Fasm

/-- `n as i64` for an integer of type `t`. -/
def asI64 (t : IntTy) (n : BitVec t.width) : U64 :=
  if t.signed then n.signExtend 64 else n.setWidth 64

/-- `i64::MIN`. -/
def i64Min : U64 := 0x8000000000000000

/-- `a / b` on `i64`, which panics on a zero divisor and on overflow. -/
def i64Div (a b : U64) : Except Panic U64 :=
  if b = 0 then .error .divByZero
  else if a = i64Min ∧ b = -1 then .error .divOverflow
  else .ok (a.sdiv b)

/-- `a % b` on `i64`, which panics where `a / b` does. -/
def i64Rem (a b : U64) : Except Panic U64 :=
  if b = 0 then .error .divByZero
  else if a = i64Min ∧ b = -1 then .error .divOverflow
  else .ok (a.srem b)

/-- `numeric_as_i64`. -/
def numericAsI64 : Value → Option U64
  | .bool b => some (if b then 1 else 0)
  | .int t n => some (asI64 t n)
  | _ => none

/-- The integer that a value denotes. -/
def Value.integer : Value → Option Int
  | .bool b => some (if b then 1 else 0)
  | .int t n => some (if t.signed then n.toInt else n.toNat)
  | _ => none

/-- `numeric_as_u64`: the same bits as `numeric_as_i64`. -/
def numericAsU64 (v : Value) : Option U64 := numericAsI64 v

/-- `numeric_as_f64`. -/
def numericAsF64 : Value → Option U64
  | .float32 f => some (f32AsF64 f)
  | .float64 f => some f
  | _ => none

/-- `numeric_op`. -/
def numericOp (intOp : U64 → U64 → Except Panic U64) (floatOp : U64 → U64 → U64) :
    Value → Value → Except Panic (Option Value)
  | .int t x, .int t' y =>
    if t = t' then do
      let r ← intOp (asI64 t x) (asI64 t' y)
      return some (.int t (r.setWidth t.width))
    else .ok none
  | .float32 x, .float32 y =>
    .ok (some (.float32 (f64AsF32 (floatOp (f32AsF64 x) (f32AsF64 y)))))
  | .float64 x, .float64 y => .ok (some (.float64 (floatOp x y)))
  | _, _ => .ok none

/-- `numeric_cmp`: the same type first, then through `i64`. -/
def numericCmp (intCmp floatCmp : U64 → U64 → Bool) : Value → Value → Option Bool
  | .float32 x, .float32 y => some (floatCmp (f32AsF64 x) (f32AsF64 y))
  | .float64 x, .float64 y => some (floatCmp x y)
  | a, b => do return intCmp (← numericAsI64 a) (← numericAsI64 b)

/-- A comparison of two numbers is one as `i64`. -/
theorem numericCmp_number {f g : U64 → U64 → Bool} {a b : Value} {x y : U64}
    (hx : numericAsI64 a = some x) (hy : numericAsI64 b = some y) :
    numericCmp f g a b = some (f x y) := by
  unfold numericCmp
  split
  case h_1 => cases hx
  case h_2 => cases hx
  case h_3 => rw [hx, hy]; rfl

/-- `bitwise_op`. -/
def bitwiseOp (op : U64 → U64 → U64) : Value → Value → Option Value
  | .int t x, .int t' y =>
    if t = t' then some (.int t ((op (asI64 t x) (asI64 t' y)).setWidth t.width)) else none
  | _, _ => none

namespace Value

/-- `Value::add`. -/
def add : Value → Value → Except Panic (Option Value) := numericOp (fun a b => .ok (a + b)) f64Add
/-- `Value::sub`. -/
def sub : Value → Value → Except Panic (Option Value) := numericOp (fun a b => .ok (a - b)) f64Sub
/-- `Value::mul`. -/
def mul : Value → Value → Except Panic (Option Value) := numericOp (fun a b => .ok (a * b)) f64Mul
/-- `Value::div`. -/
def div : Value → Value → Except Panic (Option Value) := numericOp i64Div f64Div
/-- `Value::rem`. -/
def rem : Value → Value → Except Panic (Option Value) := numericOp i64Rem f64Rem

/-- `Value::neg`. -/
def neg : Value → Option Value
  | int t n => if t.signed then some (int t (-n)) else none
  | float32 f => some (float32 (f32Neg f))
  | float64 f => some (float64 (f64Neg f))
  | _ => none

/-- `Value::cmp_lt`. -/
def cmpLt : Value → Value → Option Bool := numericCmp BitVec.slt f64Lt
/-- `Value::cmp_lte`. -/
def cmpLte : Value → Value → Option Bool := numericCmp BitVec.sle f64Le
/-- `Value::cmp_gt`. -/
def cmpGt : Value → Value → Option Bool :=
  numericCmp (fun a b => b.slt a) (fun a b => f64Lt b a)
/-- `Value::cmp_gte`. -/
def cmpGte : Value → Value → Option Bool :=
  numericCmp (fun a b => b.sle a) (fun a b => f64Le b a)

/-- `Value::eq_val`: integers and booleans as `i64`, then floats, then exact equality. -/
def eqVal (a b : Value) : Bool :=
  match numericAsI64 a, numericAsI64 b with
  | some x, some y => x == y
  | _, _ =>
    match numericAsF64 a, numericAsF64 b with
    | some x, some y => f64Eq x y
    | _, _ => a == b

/-- `Value::bit_and`. -/
def bitAnd : Value → Value → Option Value := bitwiseOp (· &&& ·)
/-- `Value::bit_or`. -/
def bitOr : Value → Value → Option Value := bitwiseOp (· ||| ·)
/-- `Value::bit_xor`. -/
def bitXor : Value → Value → Option Value := bitwiseOp (· ^^^ ·)

/-- `Value::bit_not`. -/
def bitNot : Value → Option Value
  | int t n => some (int t (~~~n))
  | _ => none

/-- `Value::shl`: of the 32- and 64-bit types only; the shift count is taken modulo the width. -/
def shl (a : Value) (shift : U32) : Option Value :=
  match a with
  | int t n => if t.bytes < 4 then none else some (int t (n <<< (shift.toNat % t.width)))
  | _ => none

/-- `Value::shr`. -/
def shr (a : Value) (shift : U32) : Option Value :=
  match a with
  | int t n =>
    if t.bytes < 4 then none
    else
      let s := shift.toNat % t.width
      some (int t (if t.signed then n.sshiftRight s else n >>> s))
  | _ => none

end Value

/-! ## Conversions of the executor -/

/-- `ok_or`. -/
def orFault {α : Type} (o : Option α) (f : Fault) : Except Stop α :=
  match o with
  | some a => .ok a
  | none => .error (.fault f)

theorem orFault_eq_ok {α : Type} {o : Option α} {f : Fault} {a : α} :
    orFault o f = .ok a ↔ o = some a := by
  cases o with
  | none => exact iff_of_false nofun nofun
  | some b =>
    constructor
    · intro h
      cases h
      rfl
    · intro h
      cases h
      rfl

/-- A Rust panic stops the instruction. -/
def orPanic {α : Type} (x : Except Panic α) : Except Stop α := x.mapError .panic

@[simp] theorem orPanic_ok {α : Type} (a : α) : orPanic (.ok a) = .ok a := rfl

/-- `as_u32`. -/
def asU32 : Value → Except Stop U32
  | .int t n => .ok ((asI64 t n).setWidth 32)
  | _ => .error (.fault .typeMismatch)

/-- `as_u64`. -/
def asU64 (v : Value) : Except Stop U64 := orFault (numericAsU64 v) .typeMismatch

/-- `imm_to_value`: a string is the `VEC` of its bytes. -/
def immToValue : Immediate → Value
  | .bool b => .bool b
  | .int t n => .int t n
  | .float32 f => .float32 f
  | .float64 f => .float64 f
  | .null => .null
  | .str s => .vec (s.toByteArray.data.toList.map fun b => .int .uint8 b.toBitVec)

/-- `default_for_type`. -/
def defaultForType : FasmType → Value
  | .bool => .bool false
  | .int t => .int t 0
  | .float32 => .float32 0
  | .float64 => .float64 0
  | .refMut => .refMut false 0
  | .refImm => .refImm false 0
  | .vec => .vec []
  | .struct => .struct []
  | .stack => .stack []
  | .queue => .queue []
  | .heapMin => .heapMin []
  | .heapMax => .heapMax []
  | .sparse => .sparse []
  | .btree => .btree []
  | .slice => .slice []
  | .deque => .deque []
  | .bitset => .bitset ⟨[], 0⟩
  | .bitvec => .bitvec ⟨[], 0⟩
  | .option => .option none
  | .result => .result (.error 0)
  | .future => .future none
  | .null => .null

/-- `imm_to_value_for_type`: a `NULL` initialiser means the type's default. -/
def immToValueForType (t : FasmType) : Operand → Value
  | .imm .null => defaultForType t
  | .imm i => immToValue i
  | _ => defaultForType t

/-- The `as_i64` of `cast_value`: floats are truncated. -/
def castI64 : Value → Option U64
  | .float32 f => some (f64AsI64 (f32AsF64 f))
  | .float64 f => some (f64AsI64 f)
  | v => numericAsI64 v

/-- The `as_f64` of `cast_value`. -/
def castF64 : Value → Option U64
  | .float32 f => some (f32AsF64 f)
  | .float64 f => some f
  | v => (castI64 v).map i64AsF64

/-- `cast_value`. -/
def castValue (val : Value) (target : FasmType) : Except Stop Value :=
  match target with
  | .bool => orFault ((castI64 val).map fun n => .bool (n != 0)) .typeMismatch
  | .int t => orFault ((castI64 val).map fun n => .int t (n.setWidth t.width)) .typeMismatch
  | .float32 => orFault ((castF64 val).map fun f => .float32 (f64AsF32 f)) .typeMismatch
  | .float64 => orFault ((castF64 val).map .float64) .typeMismatch
  | _ => .error (.fault .typeMismatch)

end Fasm
