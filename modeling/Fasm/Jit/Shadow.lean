import Fasm.Jit.Operations
import Fasm.Lib.Trace
import Fasm.Vm.Operands

/-!
# What the JIT's registers should hold

Native code keeps its variables where the interpreter has slots that `RESERVE` and a
tail call renew, and it takes the arguments of a tail call from the `SET_FIELD`s that
stand last in the text.  The shadow of a run of the interpreter records what was last
assigned to each place by an instruction that the JIT does not ignore.  Everything here
is about the run of the interpreter alone.
-/

namespace Fasm

variable {ω : Type}

/-! ## Shadows -/

/-- The value of a struct under a key. -/
def fieldOf (args : Value) (key : U32) : Value :=
  match args with
  | .struct s => (FasmStruct.get s key).getD .null
  | _ => .null

/-- The zero with which a variable of the type starts. -/
def JitType.zero : JitType → Value
  | .i32 | .i64 => .int .int64 0
  | .f32 => .float32 0
  | .f64 => .float64 0

/-- Two values of one number, or one value. -/
def Alike (v v' : Value) : Prop := v.number = v'.number ∧ (v.number = none → v = v')

/-- What was last assigned: to each variable by an instruction other than `RESERVE`, and by
each `SET_FIELD`, named by its index, if it has been executed. -/
structure Shadow where
  vars : Variable → Value
  fields : Nat → Option Value

/-- The operand of an opcode to which the JIT assigns. -/
def Opcode.dest : Opcode → Option Nat
  | .mov | .store | .neg | .not => some 1
  | .add | .sub | .mul | .div | .mod | .and | .or | .xor | .shl | .shr
  | .eq | .neq | .lt | .lte | .gt | .gte | .cast | .getField => some 2
  | _ => none

namespace Shadow

/-- At the start of a function. -/
def start (info : JitFnInfo) (args : Value) : Shadow where
  vars
    | .param key => fieldOf args key
    | x => (info.typeOf x).zero
  fields := fun _ => none

/-- After an assignment to an operand, of which `w` is the result. -/
def assign (sh : Shadow) (op : Operand) (w : View ω) : Shadow :=
  match op with
  | .slot (.local_ idx) =>
    { sh with
      vars := Function.update sh.vars (.slot idx) ((w.frame.frame.get idx.toNat).getD .null) }
  | .slot (.builtIn .ret) => { sh with vars := Function.update sh.vars .ret w.frame.retVal }
  | _ => sh

/-- After one instruction of the interpreter, from `v` to `w`. -/
def after (sh : Shadow) (instr : Instruction) (v w : View ω) : Shadow :=
  match instr.opcode with
  | .tailCall =>
    { sh with
      vars
        | .param key => fieldOf w.frame.args key
        | x => sh.vars x }
  | .setField =>
    { sh with
      fields := Function.update sh.fields v.frame.ip
        (instr.operands[2]?.bind fun op => ((v.advance.plug []).readOperand op).toOption) }
  | op =>
    match op.dest.bind (instr.operands[·]?) with
    | some dst => sh.assign dst w
    | none => sh

/-- The shadow of a run of a function, after `n` steps. -/
def along (info : JitFnInfo) (func : FunctionDef) (args : Value) (σ : Nat → View ω) :
    Nat → Shadow
  | 0 => start info args
  | n + 1 =>
    match func.instructions[(σ n).frame.ip]? with
    | some instr => (along info func args σ n).after instr (σ n) (σ (n + 1))
    | none => along info func args σ n

/-- The value that an operand reads as is the one that the JIT has for it: a slot, or `$ret`,
was not renewed since its last assignment, and an immediate fits into its register. -/
def Knows (sh : Shadow) (op : Operand) (a : Value) : Prop :=
  match op with
  | .slot (.local_ idx) => Alike a (sh.vars (.slot idx))
  | .slot (.builtIn .ret) => Alike a (sh.vars .ret)
  | .imm (.int .uint32 n) => n.msb = false
  | _ => True

end Shadow

/-! ## Steps on which the JIT agrees -/

section Agrees

variable (info : JitFnInfo) (sh : Shadow) (v : View ω) (instr : Instruction)

/-- The JIT knows what the operand at `n` reads as. -/
def Sourced (n : Nat) : Prop :=
  ∀ op a, instr.operands[n]? = some op → (v.plug []).readOperand op = .ok a → sh.Knows op a

/-- The slot at `n`, if it is one, can hold the value. -/
def Fitting (n : Nat) (r : Value) : Prop :=
  ∀ idx, instr.operands[n]? = some (.slot (.local_ idx)) → (info.typeOf (.slot idx)).Holds r

/-- The type in which the JIT has the operand at `n`. -/
def operandType (n : Nat) : Option JitType :=
  (instr.operands[n]?.bind (readOp info)).map Sigma.fst

/-- A binary operation on which the JIT agrees. -/
def BinopAgrees (op : BinOp) : Prop :=
  Sourced sh v instr 0 ∧ Sourced sh v instr 1 ∧
    ∀ m a b r, operandType info instr 0 = some m → v.Reads instr 0 a → v.Reads instr 1 b →
      op.interp a b = .ok r → op.Agrees m a b ∧ Fitting info instr 2 r

/-- A comparison on which the JIT agrees. -/
def CompareAgrees : Prop :=
  Sourced sh v instr 0 ∧ Sourced sh v instr 1 ∧
    ∀ m a b, operandType info instr 0 = some m → v.Reads instr 0 a → v.Reads instr 1 b →
      CmpAgrees m a b ∧ ∀ c, Fitting info instr 2 (.bool c)

/-- The `SET_FIELD` that stands last in the text, for each `PARAM`, comes before the `TAIL_CALL`
on every way, and what it has last stored is what the struct `args` has under the key. -/
def ArgsAgree (code : NativeCode info.typeOf) (instrs : List Instruction) (ip : Nat)
    (slot : U8) (args : Value) : Prop :=
  ∀ key, (info.paramType key).isSome → ∃ q val, setfieldVal instrs slot key ip = some q ∧
    code.dominates q ip ∧ sh.fields q = some val ∧ Alike (fieldOf args key) val

/-- A step on which the JIT agrees with the interpreter. -/
def StepAgrees (code : NativeCode info.typeOf) (instrs : List Instruction) : Prop :=
  match instr.opcode with
  | .mov | .store =>
    Sourced sh v.advance instr 0 ∧ ∀ a, v.advance.Reads instr 0 a → Fitting info instr 1 a
  | .add => BinopAgrees info sh v.advance instr .add
  | .sub => BinopAgrees info sh v.advance instr .sub
  | .mul => BinopAgrees info sh v.advance instr .mul
  | .div => BinopAgrees info sh v.advance instr .div
  | .mod => BinopAgrees info sh v.advance instr .mod
  | .and => BinopAgrees info sh v.advance instr .and
  | .or => BinopAgrees info sh v.advance instr .or
  | .xor => BinopAgrees info sh v.advance instr .xor
  | .shl => BinopAgrees info sh v.advance instr .shl
  | .shr => BinopAgrees info sh v.advance instr .shr
  | .eq | .neq | .lt | .lte | .gt | .gte => CompareAgrees info sh v.advance instr
  | .neg =>
    Sourced sh v.advance instr 0 ∧ ∀ m a r, operandType info instr 0 = some m →
      v.advance.Reads instr 0 a → a.neg = some r → NegAgrees m a ∧ Fitting info instr 1 r
  | .not =>
    Sourced sh v.advance instr 0 ∧ ∀ m a r, operandType info instr 0 = some m →
      v.advance.Reads instr 0 a → a.bitNot = some r → NotAgrees m a ∧ Fitting info instr 1 r
  | .cast =>
    Sourced sh v.advance instr 0 ∧ ∀ tm t a r, instr.operands[1]? = some (.type t) →
      JitType.fromFasm t = some tm → v.advance.Reads instr 0 a → castValue a t = .ok r →
        CastAgrees tm t a ∧ Fitting info instr 2 r
  | .getField =>
    ∀ key, instr.operands[1]? = some (.key key) → Fitting info instr 2 (fieldOf v.frame.args key)
  | .setField => Sourced sh v.advance instr 2
  | .jz | .jnz | .ret => Sourced sh v.advance instr 0
  | .jmp => instr.operands.head? = instr.operands.getLast?
  | .tailCall =>
    ∀ slot args, instr.operands[1]? = some (.slot (.local_ slot)) → v.advance.Reads instr 1 args →
      ArgsAgree info sh code instrs v.frame.ip slot args
  | _ => True

end Agrees

end Fasm
