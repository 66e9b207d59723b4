import Fasm.Lib.Trace
import Fasm.Vm.WellFormed

/-!
# Where a guard comes from

The one way in which a frame gets a guard is a `TRY` of its own; everything else keeps
the guard as it is or takes it away.  In particular nobody writes to the snapshots a
guard holds.
-/

namespace Fasm

open Pushdown (Machine Config)

variable {ω : Type} {host : Host ω} {p : Program}

/-- The next instruction of the frame is a `TRY` that sets the guard `g`, which holds what
the frame's locals and the globals hold now. -/
def TriesWith (p : Program) (g : TryGuard) (cf : CallFrame) (globals : GlobalRegister) : Prop :=
  ∃ func instr c t, Fetch p cf func instr ∧ instr.opcode = .try_ ∧
    instr.tryTargets = .ok (c, t) ∧ g = ⟨c, t, cf.frame.snapshot, globals.snapshot⟩

/-- An instruction that leaves the guard `g` is the `TRY` that sets it, or found it set. -/
theorem exec_guard_origin {v : View ω} {func : FunctionDef} {instr : Instruction}
    {r : EStateM.Result Stop (View ω) Action} {g : TryGuard} (hfetch : Fetch p v.frame func instr)
    (h : v.advance.exec host p instr = r) (hg : (stateOf r).frame.tryGuard = some g) :
    TriesWith p g v.frame v.globals ∨ v.frame.tryGuard = some g := by
  by_cases hop : instr.opcode.setsGuard = false
  · rw [exec_guard h hop] at hg
    exact .inr hg
  obtain ⟨op, operands⟩ := instr
  subst h
  cases op with
  | try_ =>
    rw [View.exec_try] at hg
    cases ht : Instruction.tryTargets ⟨.try_, operands⟩ with
    | error s =>
      rw [ht] at hg
      exact .inr hg
    | ok ct =>
      rw [ht] at hg
      exact .inl ⟨func, _, ct.1, ct.2, hfetch, rfl, ht, (Option.some.inj hg).symm⟩
  | catch_ =>
    rw [View.exec_catch] at hg
    cases hg
  | endTry =>
    rw [View.exec_endTry] at hg
    cases hg
  | _ => exact absurd rfl hop

/-- An instruction that stops leaves the guard as it was: a `TRY` only stops for want of its
targets, before it sets anything. -/
theorem exec_stop_guard {v w : View ω} {instr : Instruction} {s : Stop}
    (h : v.advance.exec host p instr = .error s w) : w.frame.tryGuard = v.frame.tryGuard := by
  by_cases hop : instr.opcode.setsGuard = false
  · exact exec_guard h hop
  obtain ⟨op, operands⟩ := instr
  cases op with
  | try_ =>
    rw [View.exec_try] at h
    cases ht : Instruction.tryTargets ⟨.try_, operands⟩ with
    | error s' => rw [ht] at h; cases h; rfl
    | ok ct => rw [ht] at h; cases h
  | catch_ => rw [View.exec_catch] at h; cases h
  | endTry => rw [View.exec_endTry] at h; cases h
  | _ => exact absurd rfl hop

/-- Frames get their guards from `TRY` only. -/
theorem origin_guard (host : Host ω) (p : Program) (g : TryGuard) :
    (machine host p).Origin (fun cf s => TriesWith p g cf s.1) (fun cf => cf.tryGuard = some g) where
  stay := by
    intro f s f' s' h hg
    cases moves_of_eq h with
    | goOn hfetch hexec => exact exec_guard_origin hfetch hexec hg
    | jump hfetch hexec => exact exec_guard_origin hfetch hexec hg
    | callJit hfetch hexec _ => exact exec_guard_origin hfetch hexec hg
    | tail hfetch hexec _ => exact exec_guard_origin hfetch hexec hg
    | caught => cases hg
  enter := by
    intro f s f' callee s' h
    cases moves_of_eq h with
    | call _ hexec _ =>
      rw [exec_call_eq hexec]
      exact ⟨id, nofun⟩
  resume := id
  stop := by
    intro f s t f' s' h hg
    cases moves_of_eq h with
    | badIndex => exact .inr hg
    | halt hfetch hexec => exact exec_guard_origin hfetch hexec hg
    | unhandled hfetch hexec _ => exact exec_guard_origin hfetch hexec hg
    | panic hfetch hexec => exact exec_guard_origin hfetch hexec hg
    | exit hfetch hexec => exact exec_guard_origin hfetch hexec hg

/-! ## Executors -/

/-- The executor when the instruction of its top frame runs. -/
def Executor.advance (e : Executor ω) (cf : CallFrame) (below : List CallFrame) : Executor ω :=
  { e with callStack := { cf with ip := cf.ip + 1 } :: below }

/-- The frame at height `d` of the executor has the guard `g`. -/
def Executor.GuardAt (e : Executor ω) (d : Nat) (g : TryGuard) : Prop :=
  e.config.At d fun cf => cf.tryGuard = some g

/-- The frame at height `d` is on top, and its next instruction is a `TRY` that sets `g`. -/
def Executor.TriesAt (e : Executor ω) (p : Program) (d : Nat) (g : TryGuard) : Prop :=
  e.config.TopAt d fun cf s => TriesWith p g cf s.1

/-- A guard that is there after a turn was there before, or the turn has set it. -/
theorem Step.guard_origin {e e' : Executor ω} (h : Step host p e e') {d : Nat} {g : TryGuard}
    (hg : e'.GuardAt d g) : e.TriesAt p d g ∨ e.GuardAt d g :=
  (origin_guard host p g).step (step_iff.mp h) hg

/-- The same for the turn that ends a run. -/
theorem Ends.guard_origin {e e' : Executor ω} {t : Ending} (hne : e.callStack ≠ [])
    (h : Ends host p e t e') {d : Nat} {g : TryGuard} (hg : e'.GuardAt d g) :
    e.TriesAt p d g ∨ e.GuardAt d g :=
  (origin_guard host p g).ends ((ends_iff hne).mp h) hg

/-! ## Faults -/

/-- The next instruction returns the fault `f`. -/
def InstrFaults (host : Host ω) (p : Program) (e : Executor ω) (f : Fault) : Prop :=
  ∃ cf below func instr e', e.callStack = cf :: below ∧ Fetch p cf func instr ∧
    executeInstruction host p instr (e.advance cf below) = .error (.fault f) e'

/-- A fault of an instruction is delivered to the top frame, whose guard and function the
instruction has left as they were. -/
theorem InstrFaults.delivered {e : Executor ω} {f : Fault} (h : InstrFaults host p e f) :
    ∃ cf below func cf' globals world, e.callStack = cf :: below ∧ cf'.tryGuard = cf.tryGuard ∧
      cf'.funcIdx = cf.funcIdx ∧
      iterate host p e = deliver func cf.ip f ⟨globals, cf' :: below, world⟩ := by
  obtain ⟨cf, below, func, instr, e', hstack, hfetch, hexec⟩ := h
  obtain ⟨globals, stack, world⟩ := e
  obtain rfl : stack = cf :: below := hstack
  let v : View ω := ⟨cf, globals, world⟩
  have hplug : executeInstruction host p instr (v.advance.plug below) = .error (.fault f) e' := hexec
  have hrun := (View.exec_plug host p instr v.advance below).symm.trans hplug
  have hiter : iterate host p (v.plug below) = deliver func cf.ip f e' := by
    have hsettle := congrArg (settle host func cf.ip) hexec
    simp only [iterate, View.plug, v, hfetch.func_eq, hfetch.instr_eq]
    exact hsettle
  cases hr : v.advance.exec host p instr with
  | ok a w => rw [hr] at hrun; cases hrun
  | error s w =>
    rw [hr] at hrun
    cases hrun
    exact ⟨cf, below, func, w.frame, w.globals, w.world, rfl, exec_stop_guard hr,
      exec_funcIdx hr, hiter⟩

/-- The next instruction, of the frame at height `d`, faults with `f` while that frame has the
guard `g`. -/
def Executor.Delivers (e : Executor ω) (host : Host ω) (p : Program) (d : Nat) (f : Fault)
    (g : TryGuard) : Prop :=
  InstrFaults host p e f ∧
    ∃ cf below, e.callStack = cf :: below ∧ below.length = d ∧ cf.tryGuard = some g

/-- Such a fault rolls the frame and the globals back and goes on at the `CATCH`. -/
theorem Executor.Delivers.next {e : Executor ω} {d : Nat} {f : Fault} {g : TryGuard}
    (h : e.Delivers host p d f g) :
    ∃ (cf cf' : CallFrame) (below : List CallFrame) (w : ω),
      e.callStack = cf :: below ∧ below.length = d ∧ cf.tryGuard = some g ∧
      cf'.funcIdx = cf.funcIdx ∧
      iterate host p e = .next ⟨⟨g.globalSnap⟩, cf'.rollback g f :: below, w⟩ := by
  obtain ⟨hfaults, cf, below, hstack, hd, hg⟩ := h
  obtain ⟨cf₁, below₁, func, cf', globals, w, hstack₁, hguard, hidx, hiter⟩ := hfaults.delivered
  cases hstack.symm.trans hstack₁
  refine ⟨cf, cf', below, w, hstack, hd, hg, hidx, ?_⟩
  rw [hiter]
  simp only [deliver, hguard, hg]
  rfl

end Fasm
