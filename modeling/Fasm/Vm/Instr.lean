import Fasm.Vm.Executor

/-!
# Instruction dispatch

`execute_instruction`.  Opcodes whose Rust arms read the same operands in the same
order and write back in the same place share one definition with the operation as
a parameter (`binaryOp`, `pushOp`, …); the order in which operands are fetched and
read is the source's, since it decides which fault is raised.
-/

namespace Fasm

open ExecM

variable {ω : Type}

/-- `get_op!`: a missing operand is a `TypeMismatch`. -/
def Instruction.getOp (instr : Instruction) (n : Nat) : Except Stop Operand :=
  orFault instr.operands[n]? .typeMismatch

/-- `read_val!`. -/
def readVal (op : Operand) : ExecM ω Value := reads fun e => e.readOperand op

/-- `write_val!`. -/
def writeVal (op : Operand) (val : Value) : ExecM ω Unit := writeOperand op val

/-! ## The collection an operation wants -/

/-- An operation on a `STRUCT`. -/
def onStruct {α : Type} (coll : Value) (f : List (U32 × Value) → Except Stop α) :
    Except Stop α :=
  match coll with
  | .struct s => f s
  | _ => .error (.fault .typeMismatch)

/-- An operation on a `SPARSE`. -/
def onSparse {α : Type} (coll : Value) (f : List (U32 × Value) → Except Stop α) :
    Except Stop α :=
  match coll with
  | .sparse s => f s
  | _ => .error (.fault .typeMismatch)

/-- An operation on a `BTREE`. -/
def onBTree {α : Type} (coll : Value) (f : List (U32 × Value) → Except Stop α) :
    Except Stop α :=
  match coll with
  | .btree b => f b
  | _ => .error (.fault .typeMismatch)

/-- An update of a `BITSET`. -/
def onBitset (coll : Value) (f : FasmBitset → Except Panic FasmBitset) : Except Stop Value :=
  match coll with
  | .bitset b => (orPanic (f b)).map .bitset
  | _ => .error (.fault .typeMismatch)

/-- An operation on two `BITSET`s. -/
def onBitsets (f : FasmBitset → FasmBitset → FasmBitset) (dst src : Value) : Except Stop Value :=
  match dst, src with
  | .bitset d, .bitset s => .ok (.bitset (f d s))
  | _, _ => .error (.fault .typeMismatch)

/-- An update of a `BITVEC`. -/
def onBitvec (coll : Value) (f : FasmBitvec → Except Panic FasmBitvec) : Except Stop Value :=
  match coll with
  | .bitvec b => (orPanic (f b)).map .bitvec
  | _ => .error (.fault .typeMismatch)

/-! ## Families -/

/-- Read operands 0 and 1, write operand 2: arithmetic, comparison, bitwise, shifts,
`GET_IDX`, `VEC_MERGE`. -/
def binaryOp (instr : Instruction) (f : Value → Value → Except Stop Value) : ExecM ω Action := do
  let a ← readVal (← instr.getOp 0)
  let b ← readVal (← instr.getOp 1)
  let r ← f a b
  writeVal (← instr.getOp 2) r
  return .continue_

/-- Read operand 0, write operand 1: `NEG`, `NOT`, `AWAIT`, `LEN`, peeks, wrapper tests
and unwraps, `BTREE_MIN`/`MAX`, `BIT_COUNT`. -/
def unaryOp (instr : Instruction) (f : Value → Except Stop Value) : ExecM ω Action := do
  let a ← readVal (← instr.getOp 0)
  let r ← f a
  writeVal (← instr.getOp 1) r
  return .continue_

/-- Read operand 1, write operand 0: `SOME`, `OK`, `ERR`. -/
def wrapOp (instr : Instruction) (f : Value → Except Stop Value) : ExecM ω Action := do
  let a ← readVal (← instr.getOp 1)
  let r ← f a
  writeVal (← instr.getOp 0) r
  return .continue_

/-- `GET_FIELD`, `HAS_FIELD`: the key of operand 1 first, then the struct of operand 0. -/
def fieldGet (instr : Instruction) (f : List (U32 × Value) → U32 → Except Stop Value) :
    ExecM ω Action := do
  let keyOp ← instr.getOp 1
  let key ← reads fun e => e.readKeyOperand keyOp
  let coll ← readVal (← instr.getOp 0)
  let val ← onStruct coll fun s => f s key
  writeVal (← instr.getOp 2) val
  return .continue_

/-- `SPARSE_GET`/`HAS`, `BTREE_GET`/`HAS`, `BIT_GET`: the key of operand 1 as a `u32`
first, then the collection of operand 0. -/
def keyedGet (instr : Instruction) (f : Value → U32 → Except Stop Value) : ExecM ω Action := do
  let key ← asU32 (← readVal (← instr.getOp 1))
  let coll ← readVal (← instr.getOp 0)
  let val ← f coll key
  writeVal (← instr.getOp 2) val
  return .continue_

/-- `PUSH`, `ENQUEUE`, `PREPEND`, `BIT_AND`/`OR`/`XOR`: update operand 0 by the value of
operand 1. -/
def pushOp (instr : Instruction) (f : Value → Value → Except Stop Value) : ExecM ω Action := do
  let val ← readVal (← instr.getOp 1)
  writeTargetMut (← instr.getOp 0) fun coll => do return ((), ← f coll val)
  return .continue_

/-- `POP`, `DEQUEUE`, `POP_BACK`: take an element out of operand 0, then write it to
operand 1. -/
def popOp (instr : Instruction) (f : Value → Except Stop (Value × Value)) : ExecM ω Action := do
  let val ← writeTargetMut (← instr.getOp 0) f
  writeVal (← instr.getOp 1) val
  return .continue_

/-- `SPARSE_DEL`, `BTREE_DEL`, `BIT_SET`/`CLR`/`FLIP`/`GROW`: update operand 0 at the key
of operand 1. -/
def keyedMut (instr : Instruction) (f : Value → U32 → Except Stop Value) : ExecM ω Action := do
  let key ← asU32 (← readVal (← instr.getOp 1))
  writeTargetMut (← instr.getOp 0) fun coll => do return ((), ← f coll key)
  return .continue_

/-- `SET_IDX`, `SPARSE_SET`, `BTREE_SET`: put the value of operand 2 into operand 0 at the
key of operand 1. -/
def keyedSet (instr : Instruction) (f : Value → U32 → Value → Except Stop Value) :
    ExecM ω Action := do
  let key ← asU32 (← readVal (← instr.getOp 1))
  let val ← readVal (← instr.getOp 2)
  writeTargetMut (← instr.getOp 0) fun coll => do return ((), ← f coll key val)
  return .continue_

/-- The callee and the arguments of `CALL`, `ASYNC_CALL` and `TAIL_CALL`: the index is
validated before the arguments are read. -/
def callTarget (instr : Instruction) (p : Program) (e : Executor ω) :
    Except Stop (Nat × Value) := do
  match ← instr.getOp 0 with
  | .funcRef idx =>
    if idx.toNat < p.functions.length then
      let args ← e.readOperand (← instr.getOp 1)
      return (idx.toNat, args)
    else .error (.fault .undeclaredSlot)
  | _ => .error (.fault .typeMismatch)

/-- `CALL`, `ASYNC_CALL`, `TAIL_CALL`. -/
def callOp (instr : Instruction) (p : Program) (action : Nat → Value → Action) :
    ExecM ω Action := do
  let (funcIdx, args) ← reads fun e => callTarget instr p e
  return action funcIdx args

/-- `JZ`, `JNZ`: jump when the condition's truth is `taken`. -/
def condJump (instr : Instruction) (taken : Bool) : ExecM ω Action := do
  let cond ← readVal (← instr.getOp 0)
  let target ← labelTarget (← instr.getOp 1)
  return if cond.isTruthy = taken then .jump target else .continue_

/-- Call a mounted handler. -/
def callSyscall (handler : SyscallFn ω) (args : Value) : ExecM ω Value := fun e =>
  match handler args e.globals e.world with
  | (.value v, g, w) => .ok v { e with globals := g, world := w }
  | (.fault f, g, w) => .error (.fault f) { e with globals := g, world := w }
  | (.exit c, g, w) => .error (.exit c) { e with globals := g, world := w }

/-- `SYSCALL`, `ASYNC_SYSCALL`: the handler's result goes to `$ret`. -/
def syscallOp (instr : Instruction) (host : Host ω) (wrap : Value → Value) : ExecM ω Action := do
  let id ← syscallId (← instr.getOp 0)
  let args ← readVal (← instr.getOp 1)
  let handler ← orFault (host.syscalls id) .badSyscall
  let result ← callSyscall handler args
  assignLast fun cf => { cf with retVal := wrap result }
  return .continue_

/-! ## Operations of the families -/

/-- A value operation that panics or is undefined on some operands. -/
def checked (op : Value → Value → Except Panic (Option Value)) (a b : Value) :
    Except Stop Value := do
  orFault (← orPanic (op a b)) .typeMismatch

/-- `DIV` and `MOD` test the divisor first. -/
def divChecked (op : Value → Value → Except Panic (Option Value)) (a b : Value) :
    Except Stop Value :=
  if b.isTruthy then checked op a b else .error (.fault .divisionByZero)

/-- A comparison as a `Bool` value. -/
def compared (op : Value → Value → Option Bool) (a b : Value) : Except Stop Value :=
  (orFault (op a b) .typeMismatch).map .bool

/-- A shift, by operand 1 as a `u32`. -/
def shifted (op : Value → U32 → Option Value) (a shift : Value) : Except Stop Value := do
  orFault (op a (← asU32 shift)) .typeMismatch

/-- The elements of a collection that `GET_IDX` reads. -/
def getIdx (coll idx : Value) : Except Stop Value := do
  let i := (← asU32 idx).toNat
  match coll with
  | .vec v | .heapMin v | .heapMax v | .slice v => orFault v[i]? .indexOutOfBounds
  | _ => .error (.fault .typeMismatch)

/-- The loop of `VEC_MERGE`: a merge of two vectors by sort key, ties from the first. -/
def vecMerge (a b : List Value) : List Value :=
  a.merge b fun x y => sortKey x ≤ sortKey y

/-- The result of `LEN`, truncated to a `u32`. -/
def lenOf : Value → Except Stop Value
  | .vec v | .stack v | .queue v | .heapMin v | .heapMax v | .slice v | .deque v =>
    .ok (.uint32 (.ofNat 32 v.length))
  | .sparse s | .btree s => .ok (.uint32 (.ofNat 32 s.length))
  | .bitset b => .ok (.uint32 b.len)
  | .bitvec b => .ok (.uint32 (b.bitLen.setWidth 32))
  | _ => .error (.fault .typeMismatch)

/-- `PEEK`. -/
def peek : Value → Except Stop Value
  | .stack s => orFault s.getLast? .indexOutOfBounds
  | .queue q | .deque q => orFault q.head? .indexOutOfBounds
  | _ => .error (.fault .typeMismatch)

/-- `PEEK_BACK`. -/
def peekBack : Value → Except Stop Value
  | .deque d => orFault d.getLast? .indexOutOfBounds
  | _ => .error (.fault .typeMismatch)

/-- `pop` of a vector, with what is left. -/
def popLast (l : List Value) : Except Stop (Value × List Value) := do
  return (← orFault l.getLast? .indexOutOfBounds, l.dropLast)

/-- `pop_front` of a deque, with what is left. -/
def popFront (l : List Value) : Except Stop (Value × List Value) := do
  return (← orFault l.head? .indexOutOfBounds, l.tail)

/-- The filter test of `VEC_FILTER`; `op` is 0 for less, 1 for equal, 2 for greater. -/
def filterTest (op : U8) (threshold elem : Value) : Bool :=
  if op = 0 then (elem.cmpLt threshold).getD false
  else if op = 1 then elem.eqVal threshold
  else if op = 2 then (elem.cmpGt threshold).getD false
  else false

/-- The copied range of `VEC_SLICE`. -/
def sliceOf (v : List Value) (start len : Nat) : List Value :=
  let stop := min (start + len) v.length
  if start ≤ stop then (v.take stop).drop start else []

/-! ## Single instructions -/

/-- `RESERVE`. -/
def execReserve (instr : Instruction) : ExecM ω Action := do
  let idxOp ← instr.getOp 0
  let typeOp ← instr.getOp 1
  let initOp ← instr.getOp 2
  match typeOp with
  | .type t =>
    writeVal idxOp (immToValueForType t initOp)
    return .continue_
  | _ => throw (.fault .typeMismatch)

/-- `ADDR`: the reference is always mutable. -/
def execAddr (instr : Instruction) : ExecM ω Action := do
  let (isGlobal, idx) := slotAddress (← instr.getOp 0)
  writeVal (← instr.getOp 1) (.refMut isGlobal idx)
  return .continue_

/-- `RET`. -/
def execRet (instr : Instruction) : ExecM ω Action := do
  if instr.operands.isEmpty then return .return_ .null
  else return .return_ (← readVal (← instr.getOp 0))

/-- `SET_FIELD`. -/
def execSetField (instr : Instruction) : ExecM ω Action := do
  let keyOp ← instr.getOp 1
  let key ← reads fun e => e.readKeyOperand keyOp
  let val ← readVal (← instr.getOp 2)
  writeTargetMut (← instr.getOp 0) fun coll =>
    onStruct coll fun s => .ok ((), .struct (FasmStruct.insert s key val))
  return .continue_

/-- `DEL_FIELD`. -/
def execDelField (instr : Instruction) : ExecM ω Action := do
  let keyOp ← instr.getOp 1
  let key ← reads fun e => e.readKeyOperand keyOp
  writeTargetMut (← instr.getOp 0) fun coll =>
    onStruct coll fun s => .ok ((), .struct (FasmStruct.remove s key))
  return .continue_

/-- `CAST`. -/
def execCast (instr : Instruction) : ExecM ω Action := do
  let val ← readVal (← instr.getOp 0)
  match ← instr.getOp 1 with
  | .type t =>
    let result ← castValue val t
    writeVal (← instr.getOp 2) result
    return .continue_
  | _ => throw (.fault .typeMismatch)

/-- The `CATCH` and `ENDTRY` targets that the operands of a `TRY` name. -/
def Instruction.tryTargets (instr : Instruction) : Except Stop (Nat × Nat) := do
  let catchIp ← labelTarget (← instr.getOp 0)
  let endIp ← labelTarget (← instr.getOp 1)
  return (catchIp, endIp)

/-- `TRY`: snapshot the frame and the globals. -/
def execTry (instr : Instruction) : ExecM ω Action := do
  let (catchIp, endIp) ← instr.tryTargets
  let frameSnap ← reads fun e => e.last.map fun cf => cf.frame.snapshot
  let globalSnap ← reads fun e => .ok e.globals.snapshot
  assignLast fun cf => { cf with tryGuard := some ⟨catchIp, endIp, frameSnap, globalSnap⟩ }
  return .continue_

/-- `CATCH`, reached by normal execution: jump to the `ENDTRY` of the guard, or go on if
there is none. -/
def execCatch : ExecM ω Action := do
  let stop ← reads fun e => e.last.map fun cf =>
    match cf.tryGuard with
    | some g => g.endIp
    | none => cf.ip
  assignLast fun cf => { cf with tryGuard := none }
  return .jump stop

/-- `VEC_SORT`. -/
def execVecSort (instr : Instruction) (host : Host ω) : ExecM ω Action := do
  writeTargetMut (← instr.getOp 0) fun coll =>
    match coll with
    | .vec v => .ok ((), .vec (host.sort.sort v))
    | _ => .error (.fault .typeMismatch)
  return .continue_

/-- `VEC_FILTER`. -/
def execVecFilter (instr : Instruction) : ExecM ω Action := do
  let src ← readVal (← instr.getOp 0)
  let op := (← asU32 (← readVal (← instr.getOp 1))).setWidth 8
  let threshold ← readVal (← instr.getOp 2)
  match src with
  | .vec v =>
    writeVal (← instr.getOp 3) (.vec (v.filter (filterTest op threshold)))
    return .continue_
  | _ => throw (.fault .typeMismatch)

/-- `VEC_SLICE`. -/
def execVecSlice (instr : Instruction) : ExecM ω Action := do
  let src ← readVal (← instr.getOp 0)
  let start ← asU32 (← readVal (← instr.getOp 1))
  let len ← asU32 (← readVal (← instr.getOp 2))
  match src with
  | .vec v =>
    writeVal (← instr.getOp 3) (.slice (sliceOf v start.toNat len.toNat))
    return .continue_
  | _ => throw (.fault .typeMismatch)

/-- `BITVEC_READ`. -/
def execBitvecRead (instr : Instruction) : ExecM ω Action := do
  let bitStart ← asU64 (← readVal (← instr.getOp 1))
  let bitLen ← asU32 (← readVal (← instr.getOp 2))
  match ← readVal (← instr.getOp 0) with
  | .bitvec bv =>
    writeVal (← instr.getOp 3) (.uint64 (bv.readBits bitStart bitLen))
    return .continue_
  | _ => throw (.fault .typeMismatch)

/-- `BITVEC_WRITE`. -/
def execBitvecWrite (instr : Instruction) : ExecM ω Action := do
  let bitStart ← asU64 (← readVal (← instr.getOp 1))
  let bitLen ← asU32 (← readVal (← instr.getOp 2))
  let value ← asU64 (← readVal (← instr.getOp 3))
  writeTargetMut (← instr.getOp 0) fun coll => do
    return ((), ← onBitvec coll fun bv => bv.writeBits bitStart bitLen value)
  return .continue_

/-- `BITVEC_PUSH`. -/
def execBitvecPush (instr : Instruction) : ExecM ω Action := do
  let value ← asU64 (← readVal (← instr.getOp 1))
  let bitLen ← asU32 (← readVal (← instr.getOp 2))
  writeTargetMut (← instr.getOp 0) fun coll => do
    return ((), ← onBitvec coll fun bv => bv.pushBits value bitLen)
  return .continue_

/-! ## Dispatch -/

/-- `execute_instruction`. -/
def executeInstruction (host : Host ω) (p : Program) (instr : Instruction) : ExecM ω Action :=
  match instr.opcode with
  | .nop => return .continue_
  | .halt => return .halt
  | .tmpBlock => do
    assignLast fun cf => { cf with tmpFrames := .new :: cf.tmpFrames }
    return .continue_
  | .endTmp => do
    onLast fun cf =>
      match cf.tmpFrames with
      | [] => .error (.fault .indexOutOfBounds)
      | _ :: fs => .ok ((), { cf with tmpFrames := fs })
    return .continue_
  | .reserve => execReserve instr
  | .release => do
    releaseOperand (← instr.getOp 0)
    return .continue_
  | .mov => do
    let src ← readVal (← instr.getOp 0)
    writeVal (← instr.getOp 1) src
    return .continue_
  | .store => do
    let op ← instr.getOp 0
    let val ← reads fun e => e.immOperand op
    writeVal (← instr.getOp 1) val
    return .continue_
  | .addr => execAddr instr
  | .add => binaryOp instr (checked Value.add)
  | .sub => binaryOp instr (checked Value.sub)
  | .mul => binaryOp instr (checked Value.mul)
  | .div => binaryOp instr (divChecked Value.div)
  | .mod => binaryOp instr (divChecked Value.rem)
  | .call | .asyncCall => callOp instr p .callFunc
  | .tailCall => callOp instr p .tailCall
  | .neg => unaryOp instr fun a => orFault a.neg .typeMismatch
  | .eq => binaryOp instr fun a b => .ok (.bool (a.eqVal b))
  | .neq => binaryOp instr fun a b => .ok (.bool !(a.eqVal b))
  | .lt => binaryOp instr (compared Value.cmpLt)
  | .lte => binaryOp instr (compared Value.cmpLte)
  | .gt => binaryOp instr (compared Value.cmpGt)
  | .gte => binaryOp instr (compared Value.cmpGte)
  | .and => binaryOp instr fun a b => orFault (a.bitAnd b) .typeMismatch
  | .or => binaryOp instr fun a b => orFault (a.bitOr b) .typeMismatch
  | .xor => binaryOp instr fun a b => orFault (a.bitXor b) .typeMismatch
  | .not => unaryOp instr fun a => orFault a.bitNot .typeMismatch
  | .shl => binaryOp instr (shifted Value.shl)
  | .shr => binaryOp instr (shifted Value.shr)
  | .jmp => do return .jump (← labelTarget (← instr.getOp 0))
  | .jz => condJump instr false
  | .jnz => condJump instr true
  | .ret => execRet instr
  | .await => unaryOp instr fun
    | .future (some v) => .ok v
    | _ => .ok .null
  | .syscall => syscallOp instr host id
  | .asyncSyscall => syscallOp instr host fun v => .future (some v)
  | .push => pushOp instr fun coll val =>
    match coll with
    | .vec v => .ok (.vec (v ++ [val]))
    | .stack s => .ok (.stack (s ++ [val]))
    | .deque d => .ok (.deque (d ++ [val]))
    | _ => .error (.fault .typeMismatch)
  | .pop => popOp instr fun
    | .stack s => (popLast s).map fun (v, s) => (v, .stack s)
    | _ => .error (.fault .typeMismatch)
  | .enqueue => pushOp instr fun coll val =>
    match coll with
    | .queue q => .ok (.queue (q ++ [val]))
    | .deque d => .ok (.deque (d ++ [val]))
    | _ => .error (.fault .typeMismatch)
  | .dequeue => popOp instr fun
    | .queue q => (popFront q).map fun (v, q) => (v, .queue q)
    | .deque d => (popFront d).map fun (v, d) => (v, .deque d)
    | _ => .error (.fault .typeMismatch)
  | .peek => unaryOp instr peek
  | .getIdx => binaryOp instr getIdx
  | .setIdx => keyedSet instr fun coll idx val =>
    match coll with
    | .vec v =>
      if idx.toNat < v.length then .ok (.vec (v.set idx.toNat val))
      else .error (.fault .indexOutOfBounds)
    | _ => .error (.fault .typeMismatch)
  | .getField => fieldGet instr fun s key => orFault (FasmStruct.get s key) .fieldNotFound
  | .setField => execSetField instr
  | .hasField => fieldGet instr fun s key => .ok (.bool (FasmStruct.containsKey s key))
  | .delField => execDelField instr
  | .len => unaryOp instr lenOf
  | .some_ => wrapOp instr fun v => .ok (.option (some v))
  | .isSome => unaryOp instr fun
    | .option (some _) => .ok (.bool true)
    | _ => .ok (.bool false)
  | .unwrap => unaryOp instr fun
    | .option o => orFault o .unwrapFault
    | _ => .error (.fault .typeMismatch)
  | .ok_ => wrapOp instr fun v => .ok (.result (.ok v))
  | .err_ => wrapOp instr fun v => (asU32 v).map fun code => .result (.error code)
  | .isOk => unaryOp instr fun
    | .result (.ok _) => .ok (.bool true)
    | _ => .ok (.bool false)
  | .unwrapOk => unaryOp instr fun
    | .result (.ok v) => .ok v
    | .result (.error _) => .error (.fault .unwrapFault)
    | _ => .error (.fault .typeMismatch)
  | .unwrapErr => unaryOp instr fun
    | .result (.error c) => .ok (.uint32 c)
    | .result (.ok _) => .error (.fault .unwrapFault)
    | _ => .error (.fault .typeMismatch)
  | .cast => execCast instr
  | .try_ => execTry instr
  | .catch_ => execCatch
  | .endTry => do
    assignLast fun cf => { cf with tryGuard := none }
    return .continue_
  | .prepend => pushOp instr fun coll val =>
    match coll with
    | .deque d => .ok (.deque (val :: d))
    | _ => .error (.fault .typeMismatch)
  | .popBack => popOp instr fun
    | .deque d => (popLast d).map fun (v, d) => (v, .deque d)
    | _ => .error (.fault .typeMismatch)
  | .peekBack => unaryOp instr peekBack
  | .vecSort => execVecSort instr host
  | .vecFilter => execVecFilter instr
  | .vecMerge => binaryOp instr fun a b =>
    match a, b with
    | .vec a, .vec b => .ok (.vec (vecMerge a b))
    | _, _ => .error (.fault .typeMismatch)
  | .vecSlice => execVecSlice instr
  | .sparseGet => keyedGet instr fun coll key =>
    onSparse coll fun s => orFault (FasmMap.get s key) .fieldNotFound
  | .sparseSet => keyedSet instr fun coll key val =>
    onSparse coll fun s => .ok (.sparse (FasmMap.insert s key val))
  | .sparseDel => keyedMut instr fun coll key =>
    onSparse coll fun s => .ok (.sparse (FasmMap.remove s key))
  | .sparseHas => keyedGet instr fun coll key =>
    onSparse coll fun s => .ok (.bool (FasmMap.containsKey s key))
  | .btreeGet => keyedGet instr fun coll key =>
    onBTree coll fun b => orFault (FasmMap.get b key) .fieldNotFound
  | .btreeSet => keyedSet instr fun coll key val =>
    onBTree coll fun b => .ok (.btree (FasmMap.insert b key val))
  | .btreeDel => keyedMut instr fun coll key =>
    onBTree coll fun b => .ok (.btree (FasmMap.remove b key))
  | .btreeHas => keyedGet instr fun coll key =>
    onBTree coll fun b => .ok (.bool (FasmMap.containsKey b key))
  | .btreeMin => unaryOp instr fun coll =>
    onBTree coll fun b => (orFault (FasmMap.minKey b) .indexOutOfBounds).map .uint32
  | .btreeMax => unaryOp instr fun coll =>
    onBTree coll fun b => (orFault (FasmMap.maxKey b) .indexOutOfBounds).map .uint32
  | .bitSet_ => keyedMut instr fun coll idx => onBitset coll fun b => b.setBit idx
  | .bitClr => keyedMut instr fun coll idx => onBitset coll fun b => .ok (b.clrBit idx)
  | .bitGet => keyedGet instr fun coll idx =>
    match coll with
    | .bitset b => .ok (.bool (b.getBit idx))
    | _ => .error (.fault .typeMismatch)
  | .bitFlip => keyedMut instr fun coll idx => onBitset coll fun b => b.flipBit idx
  | .bitCount => unaryOp instr fun
    | .bitset b => .ok (.uint32 b.popcount)
    | _ => .error (.fault .typeMismatch)
  | .bitAnd => pushOp instr (onBitsets FasmBitset.bitAnd)
  | .bitOr => pushOp instr (onBitsets (FasmBitset.bitMerge (· ||| ·)))
  | .bitXor => pushOp instr (onBitsets (FasmBitset.bitMerge (· ^^^ ·)))
  | .bitGrow => keyedMut instr fun coll nBits =>
    onBitset coll fun b => .ok (b.growTo (b.len + nBits))
  | .bitvecRead => execBitvecRead instr
  | .bitvecWrite => execBitvecWrite instr
  | .bitvecPush => execBitvecPush instr

end Fasm
