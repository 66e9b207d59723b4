import Fasm.Vm.Instr

/-!
# The run loop

`Executor::run_named`: global initialisers, the entry frame, and the loop.  One
turn of the loop is `iterate`; it either goes on, ends the run with the result of
`run_named`, panics, or ends the process.  `runLoop` iterates it with fuel, and
`Steps` is the relation between executors at the head of the loop.
-/

namespace Fasm

variable {ω : Type}

/-- `MAX_CALL_DEPTH`. -/
def maxCallDepth : Nat := 512

/-- What one turn of the loop of `run_named` does. -/
inductive Iteration (ω : Type) where
  | next (e : Executor ω)
  | done (r : Except String Value) (e : Executor ω)
  | panic (x : Panic) (e : Executor ω)
  | exit (code : U32) (e : Executor ω)

/-- `jit_dispatch`. -/
def jitDispatch (host : Host ω) (funcIdx : Nat) (args : Value) (w : ω) : Option Value × ω :=
  match host.jit with
  | some dispatch => dispatch funcIdx args w
  | none => (none, w)

/-- Pop the top frame and hand its value to the caller as `$ret`, or end the run with it. -/
def popFrame (ret : Value) (e : Executor ω) : Iteration ω :=
  match e.callStack.tail with
  | [] => .done (.ok ret) { e with callStack := [] }
  | caller :: rest => .next { e with callStack := { caller with retVal := ret } :: rest }

/-- Assign a field of the top frame and go on. -/
def onTopFrame (f : CallFrame → CallFrame) (e : Executor ω) : Iteration ω :=
  match e.callStack with
  | [] => .panic .emptyCallStack e
  | cf :: rest => .next { e with callStack := f cf :: rest }

/-- `Action::CallFunc`: the JIT first, then a new frame below the depth limit. -/
def callFunc (host : Host ω) (funcIdx : Nat) (args : Value) (e : Executor ω) : Iteration ω :=
  match jitDispatch host funcIdx args e.world with
  | (some ret, w) => onTopFrame (fun cf => { cf with retVal := ret }) { e with world := w }
  | (none, w) =>
    if maxCallDepth ≤ e.callStack.length then
      .done (.error Fault.stackOverflow.display) { e with world := w }
    else .next { e with callStack := .new funcIdx args :: e.callStack, world := w }

/-- `Action::TailCall`: the JIT first, then the top frame is reset in place.  The guard
and the `TMP` frames stay. -/
def tailCall (host : Host ω) (funcIdx : Nat) (args : Value) (e : Executor ω) : Iteration ω :=
  match jitDispatch host funcIdx args e.world with
  | (some ret, w) => popFrame ret { e with world := w }
  | (none, w) =>
    onTopFrame (fun cf => { cf with funcIdx, ip := 0, frame := .new, args, retVal := .null })
      { e with world := w }

/-- The run loop's side of an action. -/
def perform (host : Host ω) (a : Action) (e : Executor ω) : Iteration ω :=
  match a with
  | .continue_ => .next e
  | .jump target => onTopFrame (fun cf => { cf with ip := target }) e
  | .callFunc funcIdx args => callFunc host funcIdx args e
  | .tailCall funcIdx args => tailCall host funcIdx args e
  | .return_ val => popFrame val e
  | .halt => .done (.ok .null) e

/-- Roll the top frame and the globals back to a guard and go on at its `CATCH`. -/
def CallFrame.rollback (cf : CallFrame) (g : TryGuard) (f : Fault) : CallFrame :=
  { cf with
    frame := cf.frame.restore g.frameSnap
    retVal := .uint32 f.code
    ip := g.catchIp
    tryGuard := none }

/-- The error of a run that ends in a fault. -/
def unhandled (func : FunctionDef) (ip : Nat) (f : Fault) : String :=
  "Unhandled fault in '" ++ func.name ++ "' at ip " ++ toString ip ++ ": " ++ f.display

/-- The error for a function index out of range. -/
def badIndexError (funcIdx : Nat) : String :=
  "Function index " ++ toString funcIdx ++ " out of range"

/-- The fault path: only the top frame's guard is asked. -/
def deliver (func : FunctionDef) (ip : Nat) (f : Fault) (e : Executor ω) : Iteration ω :=
  match e.callStack with
  | [] => .panic .emptyCallStack e
  | cf :: rest =>
    match cf.tryGuard with
    | some g => .next { e with
        globals := e.globals.restore g.globalSnap
        callStack := cf.rollback g f :: rest }
    | none => .done (.error (unhandled func ip f)) e

/-- What becomes of the result of an instruction. -/
def settle (host : Host ω) (func : FunctionDef) (ip : Nat) :
    EStateM.Result Stop (Executor ω) Action → Iteration ω
  | .ok a e => perform host a e
  | .error (.fault f) e => deliver func ip f e
  | .error (.panic x) e => .panic x e
  | .error (.exit c) e => .exit c e

/-- One turn of the loop. -/
def iterate (host : Host ω) (p : Program) (e : Executor ω) : Iteration ω :=
  match e.callStack with
  | [] => .panic .emptyCallStack e
  | cf :: rest =>
    match p.functions[cf.funcIdx]? with
    | none => .done (.error (badIndexError cf.funcIdx)) e
    | some func =>
      match func.instructions[cf.ip]? with
      | none => popFrame cf.retVal e
      | some instr =>
        settle host func cf.ip
          (executeInstruction host p instr
            { e with callStack := { cf with ip := cf.ip + 1 } :: rest })

/-- One global initialiser: a `RESERVE` of a global slot. -/
def globalInit (g : GlobalRegister) (instr : Instruction) : GlobalRegister :=
  if instr.opcode = .reserve then
    match instr.operands with
    | .key idx :: .type t :: init :: _ => g.set idx.toNat (immToValueForType t init)
    | _ => g
  else g

/-- What `run_named` does before its loop. -/
def start (p : Program) (func : String) (args : Value) (e : Executor ω) : Iteration ω :=
  let e := { e with globals := p.globalInits.foldl globalInit e.globals }
  match p.getFunctionIndex func with
  | none => .done (.error ("No '" ++ func ++ "' function found in program")) e
  | some idx => .next { e with callStack := .new idx args :: e.callStack }

/-- The loop, for `n` turns at most. -/
def runLoop (host : Host ω) (p : Program) : Nat → Executor ω → Iteration ω
  | 0, e => .next e
  | n + 1, e =>
    match iterate host p e with
    | .next e' => runLoop host p n e'
    | it => it

/-- `run_named`, for `n` turns of its loop at most. -/
def runNamed (host : Host ω) (p : Program) (func : String) (args : Value) (n : Nat)
    (e : Executor ω) : Iteration ω :=
  match start p func args e with
  | .next e' => runLoop host p n e'
  | it => it

end Fasm
