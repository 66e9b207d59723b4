import Fasm.Jit.Clif
import Fasm.Vm.Arith

/-!
# The code generator

`codegen.rs`: `compile_fn` with its helpers, `compile_program`, and the boundary of a
call.  A function is not compiled (`none`) where `compile_fn` returns `None`, where the
builder panics on the type of a definition, and where the verifier refuses the code: an
integer instruction on floats, or a jump to a block that is never filled.
-/

namespace Fasm

/-! ## Types and operands -/

namespace JitFnInfo

/-- The type of a parameter; of two under one key the later counts. -/
def paramType (info : JitFnInfo) (key : U32) : Option JitType := info.params.reverse.lookup key

/-- The types of the variables. -/
def typeOf (info : JitFnInfo) : Variable → JitType
  | .slot idx => (info.slotTypes.lookup idx).getD .i64
  | .param key => (info.paramType key).getD .i64
  | .ret => info.retType

end JitFnInfo

/-- A `Value` with its type. -/
abbrev Typed (Γ : Variable → JitType) := (t : JitType) × CVal Γ t

variable {Γ : Variable → JitType}

/-- A value at a type that it must have. -/
def Typed.as (a : Typed Γ) (t : JitType) : Option (CVal Γ t) :=
  if h : a.1 = t then some (h ▸ a.2) else none

/-- `coerce_to`. -/
def coerceTo (a : Typed Γ) (target : JitType) : CVal Γ target :=
  if h : a.1 = target then h ▸ a.2 else .convert target a.2

/-- `zero_val`. -/
def zeroVal (t : JitType) : CVal Γ t := .const t 0

/-- `iconst`, which exists at the integer types. -/
def iconst (t : JitType) (n : U64) : Option (CVal Γ t) :=
  if t.isInt then some (.const t (n.setWidth t.width)) else none

/-- `imm_to_cv`. -/
def immToCv (hint : JitType) : Immediate → Option (Typed Γ)
  | .bool b => (iconst .i32 (if b then 1 else 0)).map (⟨_, ·⟩)
  | .int t n => (iconst (if t.width = 64 then .i64 else .i32) (asI64 t n)).map (⟨_, ·⟩)
  | .float32 f => some ⟨.f32, .const .f32 f⟩
  | .float64 f => some ⟨.f64, .const .f64 f⟩
  | .null => (iconst hint 0).map (⟨_, ·⟩)
  | .str _ => none

section Function

variable (info : JitFnInfo)

/-- `read_op`. -/
def readOp : Operand → Option (Typed info.typeOf)
  | .slot (.local_ idx) =>
    if (info.slotTypes.lookup idx).isSome then some ⟨_, .useVar (.slot idx)⟩ else none
  | .slot (.builtIn .ret) => some ⟨_, .useVar .ret⟩
  | .imm i => immToCv info.retType i
  | _ => none

/-- `write_op`: a slot converts, `$ret` does not. -/
def writeOp (op : Operand) (val : Typed info.typeOf) : Option (Segment info.typeOf) :=
  match op with
  | .slot (.local_ idx) =>
    if (info.slotTypes.lookup idx).isSome then
      some (.defVar (.slot idx) (coerceTo val (info.typeOf (.slot idx))))
    else none
  | .slot (.builtIn .ret) => (val.as (info.typeOf .ret)).map (.defVar .ret)
  | _ => none

/-- `label_target_ip`. -/
def labelTargetIp : Operand → Option Nat
  | .labelTarget t => some t.toNat
  | _ => none

/-! ## Instructions -/

/-- `BinOp`. -/
inductive BinOp where
  | add | sub | mul | div | mod | and | or | xor | shl | shr
deriving DecidableEq, Repr

/-- The instruction for an operation at a type. -/
def BinOp.inst (op : BinOp) (t : JitType) : Option BinaryInst :=
  match op with
  | .add => some (if t.isInt then .iadd else .fadd)
  | .sub => some (if t.isInt then .isub else .fsub)
  | .mul => some (if t.isInt then .imul else .fmul)
  | .div => some (if t.isInt then .sdiv else .fdiv)
  | .mod => if t.isInt then some .srem else none
  | .and => some .band
  | .or => some .bor
  | .xor => some .bxor
  | .shl => some .ishl
  | .shr => some .sshr

/-- `emit_binop`. -/
def emitBinop (instr : Instruction) (op : BinOp) : Option (Segment info.typeOf) := do
  let a ← readOp info (← instr.operands[0]?)
  let b ← readOp info (← instr.operands[1]?)
  let inst ← op.inst a.1
  if inst.accepts a.1 then
    writeOp info (← instr.operands[2]?) ⟨a.1, .binary inst a.2 (coerceTo b a.1)⟩
  else none

/-- `emit_cmp`. -/
def emitCmp (instr : Instruction) (cc : IntCC) : Option (Segment info.typeOf) := do
  let a ← readOp info (← instr.operands[0]?)
  let b ← readOp info (← instr.operands[1]?)
  if a.1.isInt then
    writeOp info (← instr.operands[2]?) ⟨.i32, .icmp cc a.2 (coerceTo b a.1)⟩
  else none

/-- The starts of blocks. -/
def blockStarts (instrs : List Instruction) : List Nat :=
  0 :: (instrs.zipIdx.flatMap fun (instr, ip) =>
    match instr.opcode with
    | .jmp | .jz | .jnz =>
      match instr.operands.getLast? with
      | some (.labelTarget t) => [t.toNat, ip + 1]
      | _ => [ip + 1]
    | .tailCall | .ret | .halt => [ip + 1]
    | _ => [])

/-- A jump to a block, if there is one and it is filled. -/
def jumpTarget (instrs : List Instruction) (op : Operand) : Option Nat := do
  let target ← labelTargetIp op
  if target ∈ blockStarts instrs ∧ target ≤ instrs.length then some target else none

/-- `JZ`, `JNZ`. -/
def emitBranch (instrs : List Instruction) (instr : Instruction) (cc : IntCC) :
    Option (Segment info.typeOf) := do
  let cond ← readOp info (← instr.operands[0]?)
  let target ← jumpTarget instrs (← instr.operands[1]?)
  if cond.1.isInt then some (.brif cc cond.2 target) else none

/-- Is this a `SET_FIELD` of the slot under the key? -/
def setsField (slot : U8) (key : U32) (instr : Instruction) : Bool :=
  instr.opcode == .setField && instr.operands[0]? == some (.slot (.local_ slot)) &&
    instr.operands[1]? == some (.key key)

/-- `setfield_vals` when the instruction at `ip` is compiled: the last `SET_FIELD` before it in
the text, if there is one. -/
def setfieldVal (instrs : List Instruction) (slot : U8) (key : U32) (ip : Nat) : Option Nat :=
  match ip with
  | 0 => none
  | ip + 1 =>
    if (instrs[ip]?.map (setsField slot key)).getD false then some ip
    else setfieldVal instrs slot key ip

/-- The argument of a `TAIL_CALL` for one parameter: the `SET_FIELD` whose value it takes, which
must have the type of the parameter. -/
def tailArg (instrs : List Instruction) (slot : U8) (ip : Nat) (key : U32) :
    Option (U32 × Nat) := do
  let q ← setfieldVal instrs slot key ip
  let val ← readOp info (← (← instrs[q]?).operands[2]?)
  if val.1 = info.typeOf (.param key) then some (key, q) else none

/-- One instruction of the loop of `compile_fn`. -/
def compileInstr (selfIdx : Nat) (instrs : List Instruction) (ip : Nat) (instr : Instruction) :
    Option (Segment info.typeOf) :=
  match instr.opcode with
  | .nop | .tmpBlock | .endTmp | .release | .reserve => some .nop
  | .mov => do
    let val ← readOp info (← instr.operands[0]?)
    writeOp info (← instr.operands[1]?) val
  | .store => do
    match ← instr.operands[0]? with
    | .imm i => writeOp info (← instr.operands[1]?) (← immToCv info.retType i)
    | _ => none
  | .add => emitBinop info instr .add
  | .sub => emitBinop info instr .sub
  | .mul => emitBinop info instr .mul
  | .div => emitBinop info instr .div
  | .mod => emitBinop info instr .mod
  | .and => emitBinop info instr .and
  | .or => emitBinop info instr .or
  | .xor => emitBinop info instr .xor
  | .shl => emitBinop info instr .shl
  | .shr => emitBinop info instr .shr
  | .neg => do
    let a ← readOp info (← instr.operands[0]?)
    writeOp info (← instr.operands[1]?)
      ⟨a.1, if a.1.isInt then .binary .isub (zeroVal a.1) a.2 else .fneg a.2⟩
  | .not => do
    let a ← readOp info (← instr.operands[0]?)
    let ones ← iconst a.1 (-1)
    writeOp info (← instr.operands[1]?) ⟨a.1, .binary .bxor a.2 ones⟩
  | .eq => emitCmp info instr .equal
  | .neq => emitCmp info instr .notEqual
  | .lt => emitCmp info instr .signedLessThan
  | .lte => emitCmp info instr .signedLessThanOrEqual
  | .gt => emitCmp info instr .signedGreaterThan
  | .gte => emitCmp info instr .signedGreaterThanOrEqual
  | .jmp => do return .jump (← jumpTarget instrs (← instr.operands.getLast?))
  | .jnz => emitBranch info instrs instr .notEqual
  | .jz => emitBranch info instrs instr .equal
  | .getField => do
    match ← instr.operands[0]?, ← instr.operands[1]? with
    | .slot (.builtIn .args), .key key =>
      if (info.paramType key).isSome then
        writeOp info (← instr.operands[2]?) ⟨_, .useVar (.param key)⟩
      else none
    | _, _ => none
  | .setField => do
    match ← instr.operands[0]?, ← instr.operands[1]? with
    | .slot (.local_ _), .key _ => do
      let val ← readOp info (← instr.operands[2]?)
      return .value val.2
    | _, _ => none
  | .tailCall => do
    match ← instr.operands[0]?, ← instr.operands[1]? with
    | .funcRef idx, .slot (.local_ slot) =>
      if idx.toNat = selfIdx then
        return .loop (← info.params.mapM fun (key, _) => tailArg info instrs slot ip key)
      else none
    | _, _ => none
  | .ret =>
    match instr.operands[0]? with
    | none => some (.return_ (zeroVal _))
    | some op => (readOp info op).map fun val => .return_ (coerceTo val _)
  | .halt => some (.return_ (zeroVal _))
  | .cast => do
    let val ← readOp info (← instr.operands[0]?)
    match ← instr.operands[1]? with
    | .type t =>
      let target ← JitType.fromFasm t
      writeOp info (← instr.operands[2]?) ⟨target, coerceTo val target⟩
    | _ => none
  | _ => none

/-- `compile_fn`.  The prologue defines each `PARAM` with the type of its own declaration. -/
def compileFn (func : FunctionDef) (selfIdx : Nat) : Option (NativeCode info.typeOf) :=
  if info.params.all fun (key, jt) => info.typeOf (.param key) == jt then
    func.instructions.zipIdx.mapM fun (instr, ip) =>
      compileInstr info selfIdx func.instructions ip instr
  else none

end Function

/-! ## Programs -/

/-- `JitEntry`. -/
structure JitEntry where
  info : JitFnInfo
  code : NativeCode info.typeOf

/-- `compile_program`: all eligible functions, or none. -/
def compileProgram (p : Program) (eligible : List (Nat × JitFnInfo)) :
    Option (List (Nat × JitEntry)) :=
  if eligible.isEmpty then none
  else eligible.mapM fun (idx, info) => do
    return (idx, ⟨info, ← compileFn info (← p.functions[idx]?) idx⟩)

/-! ## Calls -/

/-- `value_to_i64`. -/
def valueToI64 : Value → Option U64
  | .float32 f => some (f.setWidth 64)
  | .float64 f => some f
  | v => numericAsI64 v

/-- `pack_args`. -/
def packArgs (args : Value) (params : List (U32 × JitType)) : Option (List U64) :=
  match args with
  | .struct s => params.mapM fun (key, _) => (FasmStruct.get s key).bind valueToI64
  | _ => none

/-- `unpack_ret`. -/
def unpackRet (raw : U64) : JitType → Value
  | .i32 => .int .int32 (raw.setWidth 32)
  | .i64 => .int .int64 raw
  | .f32 => .float32 (raw.setWidth 32)
  | .f64 => .float64 raw

/-- What the callee finds in its parameters. -/
def abiArgs (abi : Abi) (types : List JitType) (packed : List U64) : List U64 :=
  if types.all JitType.isInt then packed else abi.mixedArgs types packed

/-- What the caller finds in the integer return register. -/
def abiRet (abi : Abi) (t : JitType) (bits : BitVec t.width) : U64 :=
  if t.isInt then bits.setWidth 64 else abi.floatRet

namespace JitEntry

variable (entry : JitEntry)

/-- The native code as it is entered: the prologue defines the parameters, and zeroes the slots
and `ret_var`. -/
def enter (abi : Abi) (packed : List U64) : Native entry.info.typeOf where
  ip := 0
  vars := (entry.info.params.zip (abiArgs abi (entry.info.params.map Prod.snd) packed)).foldl
    (fun vars a => Native.setVar vars (.param a.1.1) (a.2.setWidth _)) fun _ => 0
  vals := fun _ => 0

/-- What `call_jit` comes to. -/
inductive Outcome where
  /-- the interpreter runs the function -/
  | fallBack
  | returned (v : Value)
  | trap
  /-- still running -/
  | running

/-- `call_jit`, for `n` segments at most. -/
def callJit (abi : Abi) (args : Value) (n : Nat) : Outcome :=
  match packArgs args entry.info.params with
  | none => .fallBack
  | some packed =>
    if 8 < packed.length then .fallBack
    else
      match (entry.enter abi packed).run abi entry.code n with
      | .next _ => .running
      | .returned bits =>
        .returned (unpackRet (abiRet abi entry.info.retType bits) entry.info.retType)
      | .trap => .trap

end JitEntry

end Fasm
