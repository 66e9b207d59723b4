import Fasm.Vm.Arith
import Fasm.Vm.Memory

/-!
# The executor's state and its slot helpers

The structures of `executor.rs` and the internal helpers that read, write and
release operands.  The call stack is a list with its top first, as are the `TMP`
frames of a call frame.

Helpers that take `&self` are functions of the executor; helpers that take
`&mut self` are in `ExecM`, whose state survives a fault: what an instruction has
changed before it faults stays changed.  Every access to the top of the call
stack is the Rust `unwrap`, which panics on an empty stack.
-/

namespace Fasm

/-- `TryGuard`: the snapshot a `TRY` takes for rollback. -/
structure TryGuard where
  catchIp : Nat
  endIp : Nat
  frameSnap : List (Option Value)
  globalSnap : List (Option Value)

/-- `CallFrame`, one entry on the call stack. -/
structure CallFrame where
  funcIdx : Nat
  ip : Nat
  frame : Frame
  args : Value
  retVal : Value
  tryGuard : Option TryGuard
  tmpFrames : List TmpFrame

/-- `CallFrame::new`. -/
def CallFrame.new (funcIdx : Nat) (args : Value) : CallFrame where
  funcIdx
  ip := 0
  frame := .new
  args
  retVal := .null
  tryGuard := none
  tmpFrames := []

/-- How a syscall handler comes back, if it does. -/
inductive SyscallOutcome where
  | value (v : Value)
  | fault (f : Fault)
  /-- `std::process::exit` -/
  | exit (code : U32)

/-- `SyscallFn`: a handler gets the arguments and the globals; what else it reads and
changes is in the world `ω`. -/
abbrev SyscallFn (ω : Type) :=
  Value → GlobalRegister → ω → SyscallOutcome × GlobalRegister × ω

/-- The key by which `VEC_SORT` compares. -/
def sortKey (v : Value) : Int := ((numericAsI64 v).getD 0).toInt

/-- `sort_unstable_by`: some permutation in ascending key order. -/
structure UnstableSort where
  sort : List Value → List Value
  perm : ∀ l, (sort l).Perm l
  sorted : ∀ l, (sort l).Pairwise fun a b => sortKey a ≤ sortKey b

/-- A stable sort is one of the allowed unstable ones. -/
def UnstableSort.stable : UnstableSort where
  sort l := l.mergeSort fun a b => sortKey a ≤ sortKey b
  perm l := List.mergeSort_perm l _
  sorted l := by
    have h := @List.pairwise_mergeSort _ (fun a b => decide (sortKey a ≤ sortKey b))
      (by simp only [decide_eq_true_eq]; omega)
      (by simp only [Bool.or_eq_true, decide_eq_true_eq]; omega) l
    simpa only [decide_eq_true_eq] using h

/-- What an executor is set up with and its runs do not change: the mounted syscalls
and the JIT dispatcher. -/
structure Host (ω : Type) where
  syscalls : U32 → Option (SyscallFn ω)
  jit : Option (Nat → Value → ω → Option Value × ω)
  sort : UnstableSort

/-- `Executor`. -/
structure Executor (ω : Type) where
  globals : GlobalRegister
  callStack : List CallFrame
  world : ω

/-- `Executor::new`. -/
def Executor.new {ω : Type} (w : ω) : Executor ω := ⟨.new, [], w⟩

/-- A host without syscalls and without a JIT. -/
def Host.bare : Host Unit := ⟨fun _ => none, none, .stable⟩

/-- `Action`. -/
inductive Action where
  | continue_
  | jump (target : Nat)
  | callFunc (funcIdx : Nat) (args : Value)
  | tailCall (funcIdx : Nat) (args : Value)
  | return_ (val : Value)
  | halt

/-- Instructions run on the executor and may stop. -/
abbrev ExecM (ω : Type) := EStateM Stop (Executor ω)

namespace CallFrame

/-- The `TMP` register `idx`, through `tmp_frames.last()` and the bound check. -/
def tmpSlot (cf : CallFrame) (idx : U8) : Except Stop (Option Value) :=
  match cf.tmpFrames with
  | [] => .error (.fault .indexOutOfBounds)
  | f :: _ => if h : idx.toNat < 16 then .ok f[idx.toNat] else .error (.fault .indexOutOfBounds)

/-- Assign the `TMP` register `idx`, with the same checks. -/
def setTmpSlot (cf : CallFrame) (idx : U8) (val : Option Value) : Except Stop CallFrame :=
  match cf.tmpFrames with
  | [] => .error (.fault .indexOutOfBounds)
  | f :: fs =>
    if h : idx.toNat < 16 then .ok { cf with tmpFrames := f.set idx.toNat val :: fs }
    else .error (.fault .indexOutOfBounds)

end CallFrame

variable {ω : Type} {α : Type}

namespace Executor

/-- `call_stack.last().unwrap()`. -/
def last (e : Executor ω) : Except Stop CallFrame :=
  match e.callStack with
  | [] => .error (.panic .emptyCallStack)
  | cf :: _ => .ok cf

/-- `deref_value`. -/
def derefValue (e : Executor ω) (refVal : Value) : Except Stop Value :=
  match refVal with
  | .refMut isGlobal idx | .refImm isGlobal idx =>
    if isGlobal then orFault (e.globals.get idx.toNat) .nullDeref
    else do
      let cf ← e.last
      orFault (cf.frame.get (idx.setWidth 8).toNat) .nullDeref
  | .null => .error (.fault .nullDeref)
  | v => .ok v

/-- `read_slot`. -/
def readSlot (e : Executor ω) : SlotRef → Except Stop Value
  | .local_ idx => do
    let cf ← e.last
    orFault (cf.frame.get idx.toNat) .undeclaredSlot
  | .tmp idx => do
    let cf ← e.last
    orFault (← cf.tmpSlot idx) .undeclaredSlot
  | .global idx => orFault (e.globals.get idx.toNat) .undeclaredSlot
  | .derefLocal idx => do
    let cf ← e.last
    e.derefValue (← orFault (cf.frame.get idx.toNat) .undeclaredSlot)
  | .derefTmp idx => do
    let cf ← e.last
    e.derefValue (← orFault (← cf.tmpSlot idx) .undeclaredSlot)
  | .derefGlobal idx => do
    e.derefValue (← orFault (e.globals.get idx.toNat) .undeclaredSlot)
  | .builtIn b => do
    let cf ← e.last
    match b with
    | .args => return cf.args
    | .ret => return cf.retVal
    | .faultIndex => return .uint32 (.ofNat 32 cf.ip)
    | .faultCode => return cf.retVal

/-- `read_operand`. -/
def readOperand (e : Executor ω) : Operand → Except Stop Value
  | .slot s => e.readSlot s
  | .imm i => .ok (immToValue i)
  | _ => .error (.fault .typeMismatch)

/-- `imm_operand`. -/
def immOperand (e : Executor ω) : Operand → Except Stop Value
  | .imm i => .ok (immToValue i)
  | .slot s => e.readOperand (.slot s)
  | _ => .error (.fault .typeMismatch)

/-- `read_key_operand`. -/
def readKeyOperand (e : Executor ω) : Operand → Except Stop U32
  | .key k => .ok k
  | .imm (.int .uint32 k) => .ok k
  | .slot s => do asU32 (← e.readOperand (.slot s))
  | _ => .error (.fault .typeMismatch)

end Executor

/-- `slot_address`. -/
def slotAddress : Operand → Bool × U32
  | .slot (.local_ i) => (false, i.setWidth 32)
  | .slot (.global i) => (true, i.setWidth 32)
  | _ => (false, 0)

/-- `label_target`. -/
def labelTarget : Operand → Except Stop Nat
  | .labelTarget t => .ok t.toNat
  | _ => .error (.fault .typeMismatch)

/-- `syscall_id`. -/
def syscallId : Operand → Except Stop U32
  | .syscallId id => .ok id
  | .imm (.int .int32 id) => .ok id
  | _ => .error (.fault .typeMismatch)

namespace ExecM

/-- Run a computation that changes nothing. -/
def lift (x : Except Stop α) : ExecM ω α := fun e =>
  match x with
  | .ok a => .ok a e
  | .error s => .error s e

instance : MonadLift (Except Stop) (ExecM ω) := ⟨lift⟩

/-- Run a `&self` helper. -/
def reads (f : Executor ω → Except Stop α) : ExecM ω α := fun e => lift (f e) e

/-- Change the top frame: `call_stack.last_mut().unwrap()`. -/
def onLast (f : CallFrame → Except Stop (α × CallFrame)) : ExecM ω α := fun e =>
  match e.callStack with
  | [] => .error (.panic .emptyCallStack) e
  | cf :: rest =>
    match f cf with
    | .ok (a, cf') => .ok a { e with callStack := cf' :: rest }
    | .error s => .error s e

/-- Change the globals. -/
def onGlobals (f : GlobalRegister → Except Stop (α × GlobalRegister)) : ExecM ω α := fun e =>
  match f e.globals with
  | .ok (a, g) => .ok a { e with globals := g }
  | .error s => .error s e

/-- An assignment to a field of the top frame. -/
def assignLast (f : CallFrame → CallFrame) : ExecM ω Unit := onLast fun cf => .ok ((), f cf)

/-- `deref_write`. -/
def derefWrite (refVal val : Value) : ExecM ω Unit :=
  match refVal with
  | .refMut isGlobal idx =>
    if isGlobal then onGlobals fun g => .ok ((), g.set idx.toNat val)
    else assignLast fun cf => { cf with frame := cf.frame.set (idx.setWidth 8).toNat val }
  | .refImm _ _ => throw (.fault .writeAccessViolation)
  | .null => throw (.fault .nullDeref)
  | _ => throw (.fault .typeMismatch)

/-- `write_slot`. -/
def writeSlot (s : SlotRef) (val : Value) : ExecM ω Unit :=
  match s with
  | .local_ idx => assignLast fun cf => { cf with frame := cf.frame.set idx.toNat val }
  | .tmp idx => onLast fun cf => do return ((), ← cf.setTmpSlot idx (some val))
  | .global idx => onGlobals fun g => .ok ((), g.set idx.toNat val)
  | .derefLocal idx => do
    let refVal ← reads fun e => do
      let cf ← e.last
      orFault (cf.frame.get idx.toNat) .undeclaredSlot
    derefWrite refVal val
  | .derefTmp idx => do
    let refVal ← reads fun e => do
      let cf ← e.last
      orFault (← cf.tmpSlot idx) .undeclaredSlot
    derefWrite refVal val
  | .derefGlobal idx => do
    let refVal ← reads fun e => orFault (e.globals.get idx.toNat) .undeclaredSlot
    derefWrite refVal val
  | .builtIn b =>
    match b with
    | .ret => assignLast fun cf => { cf with retVal := val }
    | _ => throw (.fault .writeAccessViolation)

/-- `write_operand`. -/
def writeOperand (op : Operand) (val : Value) : ExecM ω Unit :=
  match op with
  | .slot s => writeSlot s val
  | _ => throw (.fault .typeMismatch)

/-- `write_target_mut`, with what its caller does to the `&mut Value`. -/
def writeTargetMut (op : Operand) (f : Value → Except Stop (α × Value)) : ExecM ω α :=
  match op with
  | .slot (.local_ idx) => onLast fun cf => do
    let (a, v) ← f (← orFault (cf.frame.get idx.toNat) .undeclaredSlot)
    return (a, { cf with frame := cf.frame.set idx.toNat v })
  | .slot (.tmp idx) => onLast fun cf => do
    let (a, v) ← f (← orFault (← cf.tmpSlot idx) .undeclaredSlot)
    return (a, ← cf.setTmpSlot idx (some v))
  | .slot (.global idx) => onGlobals fun g => do
    let (a, v) ← f (← orFault (g.get idx.toNat) .undeclaredSlot)
    return (a, g.set idx.toNat v)
  | _ => throw (.fault .typeMismatch)

/-- `release_operand`. -/
def releaseOperand (op : Operand) : ExecM ω Unit :=
  match op with
  | .slot (.local_ idx) => modify fun e =>
    match e.callStack with
    | [] => e
    | cf :: rest => { e with callStack := { cf with frame := cf.frame.remove idx.toNat } :: rest }
  | .slot (.tmp idx) => modify fun e =>
    match e.callStack with
    | [] => e
    | cf :: rest =>
      match cf.setTmpSlot idx none with
      | .ok cf' => { e with callStack := cf' :: rest }
      | .error _ => e
  | .slot (.global idx) => modify fun e => { e with globals := e.globals.remove idx.toNat }
  | _ => pure ()

end ExecM

end Fasm
