import Fasm.Jit.Analyze
import Fasm.Vm.Float
import Mathlib.Logic.Function.Basic

/-!
# The Cranelift code of a function

What the JIT makes of a function, one segment for each of its instructions, and how
it runs.  A Cranelift `Variable` is a register that keeps its value; a Cranelift
`Value` is an expression over variables, typed by construction.  The instructions have
their documented meaning: integers wrap, `sdiv` and `srem` trap, shift counts are taken
modulo the width, comparisons are signed, `fcvt_to_sint_sat` saturates.

Blocks are not modelled as such.  Every segment either falls through to the next one or
ends its block, and the only jumps are to starts of blocks.
-/

namespace Fasm

/-! ## Values -/

/-- The variables of `compile_fn`: one for each numeric slot and each `PARAM` key, and
`ret_var`. -/
inductive Variable where
  | slot (idx : U8)
  | param (key : U32)
  | ret
deriving DecidableEq, Repr

/-- The binary instructions that the code generator emits. -/
inductive BinaryInst where
  | iadd | isub | imul | sdiv | srem | band | bor | bxor | ishl | sshr
  | fadd | fsub | fmul | fdiv
deriving DecidableEq, Repr

/-- `IntCC`, the conditions of `icmp`. -/
inductive IntCC where
  | equal | notEqual
  | signedLessThan | signedLessThanOrEqual | signedGreaterThan | signedGreaterThanOrEqual
deriving DecidableEq, Repr

/-- A Cranelift `Value`, over variables of the types `Γ`. -/
inductive CVal (Γ : Variable → JitType) : JitType → Type where
  | useVar (x : Variable) : CVal Γ (Γ x)
  /-- `iconst`, `f32const`, `f64const` -/
  | const (t : JitType) (bits : BitVec t.width) : CVal Γ t
  | binary (inst : BinaryInst) {t : JitType} (a b : CVal Γ t) : CVal Γ t
  | fneg {t : JitType} (a : CVal Γ t) : CVal Γ t
  /-- `icmp`, extended to `I32` by `uextend` -/
  | icmp (cc : IntCC) {t : JitType} (a b : CVal Γ t) : CVal Γ .i32
  /-- the conversion from one type to another -/
  | convert {s : JitType} (t : JitType) (a : CVal Γ s) : CVal Γ t

/-! ## Operations -/

/-- An operation on `f32`, rounded once. -/
def f32Op (op : Float32.Model → Float32.Model → Float32.Model) (a b : U32) : U32 :=
  (op (.ofBits (.ofBitVec a)) (.ofBits (.ofBitVec b))).toBits.toBitVec

def f32Add : U32 → U32 → U32 := f32Op (· + ·)
def f32Sub : U32 → U32 → U32 := f32Op (· - ·)
def f32Mul : U32 → U32 → U32 := f32Op (· * ·)
def f32Div : U32 → U32 → U32 := f32Op (· / ·)

/-- `fcvt_from_sint.f32`, rounded once. -/
def i64AsF32 (n : U64) : U32 := (Float32.Model.ofInt n.toInt).toBits.toBitVec

/-- A saturating conversion to a signed integer of `w` bits. -/
def saturate (w : Nat) (n : U64) : BitVec w :=
  .ofInt w (max (-(2 ^ (w - 1))) (min n.toInt (2 ^ (w - 1) - 1)))

/-- What `coerce_to` converts with, from the first type to the second: `sextend` and `ireduce`,
`fpromote` and `fdemote`, `fcvt_from_sint`, `fcvt_to_sint_sat`. -/
def convertBits : (s t : JitType) → BitVec s.width → BitVec t.width
  | .i32, .i64, a => a.signExtend 64
  | .i64, .i32, a => a.setWidth 32
  | .f32, .f64, a => f32AsF64 a
  | .f64, .f32, a => f64AsF32 a
  | .i32, .f32, a => i64AsF32 (a.signExtend 64)
  | .i32, .f64, a => i64AsF64 (a.signExtend 64)
  | .i64, .f32, a => i64AsF32 a
  | .i64, .f64, a => i64AsF64 a
  | .f32, .i32, a => saturate 32 (f64AsI64 (f32AsF64 a))
  | .f64, .i32, a => saturate 32 (f64AsI64 a)
  | .f32, .i64, a => saturate 64 (f64AsI64 (f32AsF64 a))
  | .f64, .i64, a => saturate 64 (f64AsI64 a)
  | .i32, .i32, a | .i64, .i64, a | .f32, .f32, a | .f64, .f64, a => a

/-- The float instruction of a type; no integer type has one. -/
def floatOp (op32 : U32 → U32 → U32) (op64 : U64 → U64 → U64) :
    (t : JitType) → BitVec t.width → BitVec t.width → BitVec t.width
  | .f32, a, b => op32 a b
  | .f64, a, b => op64 a b
  | .i32, a, _ | .i64, a, _ => a

/-- What the calling convention and the documentation leave open. -/
structure Abi where
  /-- what the callee finds in its parameters where one of them is a float: the caller passes
  them all in integer registers -/
  mixedArgs : List JitType → List U64 → List U64
  /-- what the caller finds in the integer return register when a float is returned -/
  floatRet : U64
  /-- the `Value` of a `SET_FIELD` that does not dominate its use, where that compiles -/
  undominated : Nat → U64
  /-- does `srem` trap where `sdiv` overflows, or give 0 -/
  sremTraps : Bool

namespace BinaryInst

/-- The types that the verifier lets the instruction have. -/
def accepts : BinaryInst → JitType → Bool
  | iadd, t | isub, t | imul, t | sdiv, t | srem, t | ishl, t | sshr, t => t.isInt
  | fadd, t | fsub, t | fmul, t | fdiv, t => !t.isInt
  | band, _ | bor, _ | bxor, _ => true

/-- The result; `none` is a trap. -/
def eval (abi : Abi) (inst : BinaryInst) (t : JitType) (a b : BitVec t.width) :
    Option (BitVec t.width) :=
  match inst with
  | iadd => some (a + b)
  | isub => some (a - b)
  | imul => some (a * b)
  | sdiv =>
    if b = 0 ∨ a = .intMin t.width ∧ b = -1 then none else some (a.sdiv b)
  | srem =>
    if b = 0 ∨ abi.sremTraps ∧ a = .intMin t.width ∧ b = -1 then none else some (a.srem b)
  | band => some (a &&& b)
  | bor => some (a ||| b)
  | bxor => some (a ^^^ b)
  | ishl => some (a <<< (b.toNat % t.width))
  | sshr => some (a.sshiftRight (b.toNat % t.width))
  | fadd => some (floatOp f32Add f64Add t a b)
  | fsub => some (floatOp f32Sub f64Sub t a b)
  | fmul => some (floatOp f32Mul f64Mul t a b)
  | fdiv => some (floatOp f32Div f64Div t a b)

end BinaryInst

/-- `icmp`. -/
def IntCC.eval {w : Nat} (cc : IntCC) (a b : BitVec w) : Bool :=
  match cc with
  | equal => a == b
  | notEqual => a != b
  | signedLessThan => a.slt b
  | signedLessThanOrEqual => a.sle b
  | signedGreaterThan => b.slt a
  | signedGreaterThanOrEqual => b.sle a

/-- `fneg` flips the sign bit. -/
def fnegBits : (t : JitType) → BitVec t.width → BitVec t.width
  | .f32, a => f32Neg a
  | .f64, a => f64Neg a
  | .i32, a | .i64, a => a

/-- The contents of the variables. -/
abbrev Registers (Γ : Variable → JitType) := (x : Variable) → BitVec (Γ x).width

/-- The bits of a value; `none` is a trap. -/
def CVal.eval {Γ : Variable → JitType} (abi : Abi) (vars : Registers Γ) :
    {t : JitType} → CVal Γ t → Option (BitVec t.width)
  | _, useVar x => some (vars x)
  | _, const _ bits => some bits
  | t, binary inst a b => do inst.eval abi t (← a.eval abi vars) (← b.eval abi vars)
  | t, fneg a => do return fnegBits t (← a.eval abi vars)
  | _, icmp cc a b => do
    return if cc.eval (← a.eval abi vars) (← b.eval abi vars) then 1 else 0
  | t, convert (s := s) _ a => do return convertBits s t (← a.eval abi vars)

section Eval

variable {Γ : Variable → JitType} {abi : Abi} {vars : Registers Γ} {t : JitType} {a b : CVal Γ t}
  {x y : BitVec t.width}

theorem CVal.eval_binary (inst : BinaryInst) (ha : a.eval abi vars = some x)
    (hb : b.eval abi vars = some y) :
    (binary inst a b).eval abi vars = inst.eval abi t x y := by
  simp only [CVal.eval, ha, hb, Option.bind_eq_bind, Option.bind_some]

theorem CVal.eval_fneg (ha : a.eval abi vars = some x) :
    (fneg a).eval abi vars = some (fnegBits t x) := by
  simp only [CVal.eval, ha, Option.bind_eq_bind, Option.bind_some, Option.pure_def]

theorem CVal.eval_icmp (cc : IntCC) (ha : a.eval abi vars = some x)
    (hb : b.eval abi vars = some y) :
    (icmp cc a b).eval abi vars = some (if cc.eval x y then 1 else 0) := by
  simp only [CVal.eval, ha, hb, Option.bind_eq_bind, Option.bind_some, Option.pure_def]

theorem CVal.eval_convert (t' : JitType) (ha : a.eval abi vars = some x) :
    (convert t' a).eval abi vars = some (convertBits t t' x) := by
  simp only [CVal.eval, ha, Option.bind_eq_bind, Option.bind_some, Option.pure_def]

end Eval

/-! ## Code -/

variable {Γ : Variable → JitType}

/-- What is emitted for one instruction. -/
inductive Segment (Γ : Variable → JitType) where
  | nop
  | defVar (x : Variable) (a : CVal Γ (Γ x))
  /-- a `Value` that a later `TAIL_CALL` may take, of a `SET_FIELD` -/
  | value {t : JitType} (a : CVal Γ t)
  | jump (target : Nat)
  /-- branch if the value compares so with 0, else fall through -/
  | brif (cc : IntCC) {t : JitType} (a : CVal Γ t) (target : Nat)
  | return_ (a : CVal Γ (Γ .ret))
  /-- assign the `Value`s of the segments named to the parameters, at once, and jump to the
  first segment -/
  | loop (args : List (U32 × Nat))

/-- The code of a function.  Behind its last segment stands a `return` of zero. -/
abbrev NativeCode (Γ : Variable → JitType) := List (Segment Γ)

namespace NativeCode

/-- The segments to which control goes from one segment. -/
def successors (code : NativeCode Γ) (ip : Nat) : List Nat :=
  match code[ip]? with
  | none | some (.return_ _) => []
  | some .nop | some (.defVar _ _) | some (.value _) => [ip + 1]
  | some (.jump target) => [target]
  | some (.brif _ _ target) => [target, ip + 1]
  | some (.loop _) => [0]

/-- The segments found from the start in `n` rounds without going through `avoid`. -/
def reachAvoiding (code : NativeCode Γ) (avoid : Nat) : Nat → List Nat
  | 0 => [0]
  | n + 1 =>
    let found := reachAvoiding code avoid n
    (found ++ (found.filter (· != avoid)).flatMap code.successors).eraseDups

/-- Does every way from the start to `ip` go through `q`? -/
def dominates (code : NativeCode Γ) (q ip : Nat) : Bool :=
  !(code.reachAvoiding q (code.length + 1)).contains ip

end NativeCode

/-- The state of native code: the next segment, the variables, and the `Value`s of the
`SET_FIELD`s that have been executed, in 64 bits. -/
structure Native (Γ : Variable → JitType) where
  ip : Nat
  vars : Registers Γ
  vals : Nat → U64

/-- What one segment does. -/
inductive NativeTurn (Γ : Variable → JitType) where
  | next (s : Native Γ)
  | returned (bits : BitVec (Γ .ret).width)
  | trap

namespace Native

/-- Define a variable. -/
def setVar (vars : Registers Γ) (x : Variable) (bits : BitVec (Γ x).width) : Registers Γ :=
  fun y => if h : y = x then h ▸ bits else vars y

theorem setVar_self (vars : Registers Γ) (x : Variable) (bits : BitVec (Γ x).width) :
    setVar vars x bits x = bits := dif_pos rfl

theorem setVar_of_ne {x y : Variable} (h : y ≠ x) (vars : Registers Γ)
    (bits : BitVec (Γ x).width) : setVar vars x bits y = vars y := dif_neg h

/-- The `Value` that a `TAIL_CALL` at `ip` takes from the segment `q`. -/
def taken (abi : Abi) (code : NativeCode Γ) (s : Native Γ) (q : Nat) : U64 :=
  if code.dominates q s.ip then s.vals q else abi.undominated q

/-- The variables after the assignments of a `TAIL_CALL`, in the order of the `PARAM`s. -/
def passArgs (taken : Nat → U64) (vars : Registers Γ) (args : List (U32 × Nat)) : Registers Γ :=
  args.foldl (fun vars a => setVar vars (.param a.1) ((taken a.2).setWidth _)) vars

/-- Run one segment. -/
def turn (abi : Abi) (code : NativeCode Γ) (s : Native Γ) : NativeTurn Γ :=
  match code[s.ip]? with
  | none => .returned 0
  | some .nop => .next { s with ip := s.ip + 1 }
  | some (.defVar x a) =>
    match a.eval abi s.vars with
    | some bits => .next { s with ip := s.ip + 1, vars := setVar s.vars x bits }
    | none => .trap
  | some (.value a) =>
    match a.eval abi s.vars with
    | some bits =>
      .next { s with ip := s.ip + 1, vals := Function.update s.vals s.ip (bits.setWidth 64) }
    | none => .trap
  | some (.jump target) => .next { s with ip := target }
  | some (.brif cc a target) =>
    match a.eval abi s.vars with
    | some bits => .next { s with ip := if cc.eval bits 0 then target else s.ip + 1 }
    | none => .trap
  | some (.return_ a) =>
    match a.eval abi s.vars with
    | some bits => .returned bits
    | none => .trap
  | some (.loop args) =>
    .next { s with ip := 0, vars := passArgs (s.taken abi code) s.vars args }

/-- Run for `n` segments at most. -/
def run (abi : Abi) (code : NativeCode Γ) : Nat → Native Γ → NativeTurn Γ
  | 0, s => .next s
  | n + 1, s =>
    match s.turn abi code with
    | .next s' => run abi code n s'
    | t => t

end Native

end Fasm
