import Fasm.Vm.Moves
import Fasm.Vm.WellFormed

/-!
# The dispatcher and its sandbox pool

`dispatcher.rs` of the engine and the part of `sandbox.rs` and `executor.rs` that it
rests on: a thread keeps one sandbox from request to request, with the globals and
the JIT dispatcher that earlier requests have left in it.  The semaphore, the metrics
and the operating-system protections have no part in the result of a request and are
left out, as is a request that is turned away before it gets a thread.
-/

namespace Fasm

variable {ω : Type}

/-- `FasmJit`: native code for functions of a program, with the program that it was compiled
from. -/
structure FasmJit (ω : Type) where
  program : Program
  dispatch : Nat → Value → ω → Option Value × ω

/-- `ExecRequest`. -/
structure ExecRequest (ω : Type) where
  func : String
  program : Program
  args : Value
  jit : Option (FasmJit ω)

/-- `Sandbox`: what its executor keeps, and the attached JIT dispatcher.  The mounted
syscalls are the same for every sandbox of an engine. -/
structure Sandbox (ω : Type) where
  globals : GlobalRegister
  callStack : List CallFrame
  jit : Option (FasmJit ω)

namespace Sandbox

/-- `from_config` and `mount_engine_syscalls`. -/
def new : Sandbox ω := ⟨.new, [], none⟩

/-- `reset`: `reset_call_stack` of the executor. -/
def reset (sb : Sandbox ω) : Sandbox ω := { sb with callStack := [] }

/-- `set_jit`. -/
def setJit (sb : Sandbox ω) (jit : FasmJit ω) : Sandbox ω := { sb with jit := some jit }

/-- The host of a run in the sandbox. -/
def host (mounted : Host ω) (sb : Sandbox ω) : Host ω :=
  { mounted with jit := sb.jit.map FasmJit.dispatch }

/-- The executor of the sandbox. -/
def executor (sb : Sandbox ω) (w : ω) : Executor ω := ⟨sb.globals, sb.callStack, w⟩

end Sandbox

/-- A blocking thread: its `THREAD_SANDBOX`, and the world outside. -/
structure Worker (ω : Type) where
  threadSandbox : Option (Sandbox ω)
  world : ω

/-- `acquire_sandbox`. -/
def acquireSandbox (k : Worker ω) : Sandbox ω :=
  match k.threadSandbox with
  | some sb => sb.reset
  | none => .new

/-- The sandbox in which a request runs. -/
def ExecRequest.sandbox (req : ExecRequest ω) (k : Worker ω) : Sandbox ω :=
  match req.jit with
  | some jit => (acquireSandbox k).setJit jit
  | none => acquireSandbox k

/-- `release_sandbox`, after a run that left the executor `e`. -/
def releaseSandbox (sb : Sandbox ω) (e : Executor ω) : Worker ω :=
  ⟨some { sb with globals := e.globals, callStack := e.callStack }, e.world⟩

/-- `EngineError`, as far as a request that got a thread can end in it. -/
inductive EngineError where
  | fasmFault (msg : String)
  | joinError
deriving DecidableEq

/-- The body of `spawn_async` and of `spawn_fire_and_forget` on a thread: the request ends
with a reply and leaves the thread to the next one.  When the run panics, the sandbox is
dropped with the stack. -/
inductive Serves (mounted : Host ω) (k : Worker ω) (req : ExecRequest ω) :
    Except EngineError Value → Worker ω → Prop
  | finished {n : Nat} {r : Except String Value} {e : Executor ω}
    (h : runNamed ((req.sandbox k).host mounted) req.program req.func req.args n
      ((req.sandbox k).executor k.world) = .done r e) :
    Serves mounted k req (r.mapError .fasmFault) (releaseSandbox (req.sandbox k) e)
  | panicked {n : Nat} {x : Panic} {e : Executor ω}
    (h : runNamed ((req.sandbox k).host mounted) req.program req.func req.args n
      ((req.sandbox k).executor k.world) = .panic x e) :
    Serves mounted k req (.error .joinError) ⟨none, e.world⟩

/-- What a thread has come to: its sandbox has handled the requests `reqs`, in this order,
since it was built. -/
inductive Pooled (mounted : Host ω) : List (ExecRequest ω) → Worker ω → Prop
  | start (w : ω) : Pooled mounted [] ⟨none, w⟩
  | served {reqs k req r k'} (h : Pooled mounted reqs k) (hserve : Serves mounted k req r k')
    (hkept : k'.threadSandbox ≠ none) : Pooled mounted (reqs ++ [req]) k'
  | dropped {reqs k req r k'} (h : Pooled mounted reqs k) (hserve : Serves mounted k req r k')
    (hlost : k'.threadSandbox = none) : Pooled mounted [] k'

/-! ## The attached JIT -/

/-- The next turn of the loop answers a call with native code. -/
def RunsNative (host : Host ω) (p : Program) (e : Executor ω) : Prop :=
  ∃ cf below func instr i args w ret w', e.callStack = cf :: below ∧ Fetch p cf func instr ∧
    (executeInstruction host p instr
        { e with callStack := { cf with ip := cf.ip + 1 } :: below } = .ok (.callFunc i args) w ∨
      executeInstruction host p instr
        { e with callStack := { cf with ip := cf.ip + 1 } :: below } = .ok (.tailCall i args) w) ∧
    jitDispatch host i args w.world = (some ret, w')

/-- During the request, every call that is answered by native code is answered by code
compiled from the program of the request, and none is when the request brings no JIT. -/
def JitMatched (mounted : Host ω) (k : Worker ω) (req : ExecRequest ω) : Prop :=
  ∀ e, RunReaches ((req.sandbox k).host mounted) req.program req.func req.args
      ((req.sandbox k).executor k.world) e →
    RunsNative ((req.sandbox k).host mounted) req.program e →
      req.jit ≠ none ∧ ∃ jit, (req.sandbox k).jit = some jit ∧ jit.program = req.program

/-- The JIT that is attached to the sandbox of a thread was brought by a request that the
sandbox has handled. -/
theorem Pooled.jit_brought {mounted : Host ω} {reqs : List (ExecRequest ω)} {k : Worker ω}
    (h : Pooled mounted reqs k) {sb : Sandbox ω} (hsb : k.threadSandbox = some sb)
    {jit : FasmJit ω} (hjit : sb.jit = some jit) : ∃ q ∈ reqs, q.jit = some jit := by
  induction h generalizing sb jit with
  | start w => cases hsb
  | dropped h hserve hlost => rw [hlost] at hsb; cases hsb
  | @served reqs k req r k' h hserve hkept ih =>
    cases hserve with
    | panicked => exact absurd rfl hkept
    | finished hrun =>
      cases hsb
      change (req.sandbox k).jit = some jit at hjit
      unfold ExecRequest.sandbox at hjit
      cases hreq : req.jit with
      | some jit' =>
        rw [hreq] at hjit
        cases hjit
        exact ⟨req, by simp, hreq⟩
      | none =>
        rw [hreq] at hjit
        simp only [acquireSandbox] at hjit
        cases hk : k.threadSandbox with
        | none => rw [hk] at hjit; cases hjit
        | some sb₀ =>
          rw [hk] at hjit
          obtain ⟨q, hq, hqjit⟩ := ih hk hjit
          exact ⟨q, List.mem_append_left _ hq, hqjit⟩

end Fasm
