import Fasm.Engine.Isolation
import Fasm.Jit.Codegen
import Fasm.Vm.ReferenceFlow

/-!
# Reusing an executor

A call of `run_named` leaves two things behind on its executor: the globals and, if it does
not end by returning from its entry function, its frames.  A program whose instructions
name no global slot cannot reach the globals, as long as no reference to one is passed to
it: it has no way to make such a reference.  So where no frame is left, the next call
cannot tell the executor from a new one.
-/

namespace Fasm

variable {ω : Type}

/-! ## Programs without globals -/

/-- The operand is a global slot, or a dereference of one. -/
def Operand.isGlobal : Operand → Bool
  | .slot (.global _) | .slot (.derefGlobal _) => true
  | _ => false

/-- No instruction of the program names a global slot. -/
def Program.NamesNoGlobal (p : Program) : Prop :=
  ∀ func ∈ p.functions, ∀ instr ∈ func.instructions, ∀ op ∈ instr.operands, op.isGlobal = false

/-- No instruction of the program performs a syscall. -/
def Program.PerformsNoSyscall (p : Program) : Prop :=
  ∀ func ∈ p.functions, ∀ instr ∈ func.instructions, instr.opcode.callsHandler = false

/-- What the JIT returns is unpacked from a machine word. -/
def Host.Unpacks (host : Host ω) : Prop :=
  ∀ dispatch i args w v w', host.jit = some dispatch → dispatch i args w = (some v, w') →
    ∃ raw t, v = unpackRet raw t

/-- A reference to a local slot. -/
def LocalRef (r : SlotAddress) : Prop := r.1 = false

/-- Every slot that holds a value is one that the program initialises. -/
def Program.OnlyInits (p : Program) (g : GlobalRegister) : Prop :=
  ∀ i, p.Initialises i ∨ g.get i = none

/-- No value of the frame holds a reference to a global. -/
structure CallFrame.Confined (p : Program) (cf : CallFrame) : Prop where
  args : cf.args.RefsIn LocalRef
  retVal : cf.retVal.RefsIn LocalRef
  locals : ∀ i v, cf.frame.get i = some v → v.RefsIn LocalRef
  registers : ∀ d i v, cf.register d i = some v → v.RefsIn LocalRef
  snapshot : ∀ g, cf.tryGuard = some g →
    (∀ i v, Slots.get ⟨g.frameSnap⟩ i = some v → v.RefsIn LocalRef) ∧ p.OnlyInits ⟨g.globalSnap⟩

/-- No frame holds a reference to a global, and the globals are as the initialisers have left
them. -/
structure Executor.Confined (p : Program) (e : Executor ω) : Prop where
  globals : p.OnlyInits e.globals
  frames : ∀ cf ∈ e.callStack, cf.Confined p

/-! ## Instructions -/

section Instructions

variable {p : Program} {v w : View ω} {instr : Instruction} {host : Host ω}

/-- The frame and the globals of a view. -/
structure View.Confined (p : Program) (v : View ω) : Prop where
  globals : p.OnlyInits v.globals
  frame : v.frame.Confined p

/-- A dereference finds a local. -/
theorem refsIn_derefValue (h : v.Confined p) {x y : Value} (hx : x.RefsIn LocalRef)
    (hy : (v.plug []).derefValue x = .ok y) : y.RefsIn LocalRef := by
  unfold Executor.derefValue at hy
  split at hy
  · rename_i g idx
    have hg : g = false := (Value.refsIn_refMut g idx).mp hx
    subst hg
    exact h.frame.locals _ y (orFault_eq_ok.mp hy)
  · rename_i g idx
    have hg : g = false := (Value.refsIn_refImm g idx).mp hx
    subst hg
    exact h.frame.locals _ y (orFault_eq_ok.mp hy)
  · cases hy
  · cases hy
    exact hx

/-- The value of a register that is read. -/
theorem refsIn_tmpSlot (h : v.Confined p) {i : U8} {x : Value}
    (hx : v.frame.tmpSlot i >>= (fun o => orFault o .undeclaredSlot) = .ok x) :
    x.RefsIn LocalRef := by
  obtain ⟨o, ho, hx⟩ := bind_eq_ok hx
  exact h.frame.registers 0 _ x ((register_of_tmpSlot ho).trans (orFault_eq_ok.mp hx))

/-- Operands that are not global read no reference to a global. -/
theorem refsIn_readOperand (h : v.Confined p) {op : Operand} (hop : op.isGlobal = false)
    {x : Value} (hx : (v.plug []).readOperand op = .ok x) : x.RefsIn LocalRef := by
  cases op with
  | slot s =>
    cases s with
    | local_ i => exact h.frame.locals _ x (orFault_eq_ok.mp hx)
    | tmp i => exact refsIn_tmpSlot h hx
    | derefLocal i =>
      obtain ⟨cf, hcf, hx⟩ := bind_eq_ok (hx : _ >>= _ = _)
      cases hcf
      obtain ⟨y, hy, hx⟩ := bind_eq_ok hx
      exact refsIn_derefValue h (h.frame.locals _ y (orFault_eq_ok.mp hy)) hx
    | derefTmp i =>
      obtain ⟨cf, hcf, hx⟩ := bind_eq_ok (hx : _ >>= _ = _)
      cases hcf
      obtain ⟨o, ho, hx⟩ := bind_eq_ok hx
      obtain ⟨y, hy, hx⟩ := bind_eq_ok hx
      have hreg := (register_of_tmpSlot ho).trans (orFault_eq_ok.mp hy)
      exact refsIn_derefValue h (h.frame.registers 0 _ y hreg) hx
    | builtIn b =>
      cases b with
      | args =>
        cases hx
        exact h.frame.args
      | faultIndex =>
        cases hx
        exact Value.refsIn_int _ _
      | ret | faultCode =>
        cases hx
        exact h.frame.retVal
    | global i | derefGlobal i => cases hop
  | imm i =>
    cases hx
    exact refsIn_immToValue i
  | _ => cases hx

/-- Such operands name no global. -/
theorem place_ne_global (h : v.Confined p) {op : Operand} (hop : op.isGlobal = false)
    {q : Place} (hq : op.place (v.plug []) = some q) (i : Nat) : q ≠ .global i := by
  have hbehind {x : Value} (hx : x.RefsIn LocalRef) (hq : x.place = some q) : q ≠ .global i := by
    cases x with
    | refMut g idx =>
      have hg : g = false := (Value.refsIn_refMut g idx).mp hx
      subst hg
      cases hq
      exact nofun
    | _ => cases hq
  cases op with
  | slot s =>
    cases s with
    | local_ | tmp =>
      cases hq
      exact nofun
    | derefLocal i =>
      obtain ⟨x, hx, hq⟩ := Option.bind_eq_some_iff.mp hq
      exact hbehind (h.frame.locals _ x hx) hq
    | derefTmp i =>
      obtain ⟨x, hx, hq⟩ := Option.bind_eq_some_iff.mp hq
      exact hbehind (h.frame.registers 0 _ x hx) hq
    | builtIn b =>
      cases b with
      | ret =>
        cases hq
        exact nofun
      | _ => cases hq
    | global i | derefGlobal i => cases hop
  | _ => cases hq

/-- An instruction that names no global makes no reference to one. -/
theorem within_local (h : v.Confined p) (hops : ∀ op ∈ instr.operands, op.isGlobal = false) :
    instr.Within LocalRef (fun q => ∀ i, q ≠ .global i) (v.plug []) where
  reads n op x _ hop hx := refsIn_readOperand h (hops op (List.mem_of_getElem? hop)) hx
  names q hq := by
    obtain ⟨op, hop, hq⟩ := hq
    exact place_ne_global h (hops op (mem_operands_of_target hop)) hq
  creates r hr := by
    unfold Instruction.Creates at hr
    split at hr
    · obtain ⟨op, hop, rfl⟩ := hr
      have hlocal := hops op (List.mem_of_getElem? hop)
      unfold slotAddress
      split
      · rfl
      · cases hlocal
      · rfl
    · cases hr
      rfl
    · cases hr

/-- A view that differs in places without references to globals. -/
theorem View.Confined.of_places (h : v.Confined p)
    (hplaces : ∀ q : Place, q.get (w.plug []) = q.get (v.plug []) ∨
      (∀ i, q ≠ .global i) ∧ ∀ x, q.get (w.plug []) = some x → x.RefsIn LocalRef)
    (hargs : w.frame.args = v.frame.args) (hguard : w.frame.tryGuard = v.frame.tryGuard) :
    w.Confined p := by
  refine ⟨fun i => ?_, ?_, ?_, ?_, ?_, ?_⟩
  · rcases hplaces (.global i) with hsame | ⟨hne, -⟩
    · have hget : w.globals.get i = v.globals.get i := hsame
      rw [hget]
      exact h.globals i
    · exact absurd rfl (hne i)
  · rw [hargs]
    exact h.frame.args
  · rcases hplaces .ret with hsame | ⟨-, hnew⟩
    · have hret : w.frame.retVal = v.frame.retVal := Option.some.inj hsame
      rw [hret]
      exact h.frame.retVal
    · exact hnew _ rfl
  · intro i x hx
    rcases hplaces (.local_ i) with hsame | ⟨-, hnew⟩
    · exact h.frame.locals i x (hsame.symm.trans hx)
    · exact hnew x hx
  · intro d i x hx
    rcases hplaces (.tmp d i) with hsame | ⟨-, hnew⟩
    · exact h.frame.registers d i x (hsame.symm.trans hx)
    · exact hnew x hx
  · rw [hguard]
    exact h.frame.snapshot

theorem View.Confined.of_tmpFrames (h : v.Confined p) {fs : List TmpFrame}
    (hfs : fs = .new :: v.frame.tmpFrames ∨ ∃ f, v.frame.tmpFrames = f :: fs) :
    View.Confined p { v with frame := { v.frame with tmpFrames := fs } } := by
  obtain ⟨hglobals, hargs, hret, hlocals, hregisters, hsnapshot⟩ := h
  refine ⟨hglobals, hargs, hret, hlocals, fun d i x hx => ?_, hsnapshot⟩
  rcases register_tmpFrames hfs d i with hnone | ⟨d', hd'⟩
  · cases hnone.symm.trans hx
  · exact hregisters d' i x (hd'.symm.trans hx)

theorem View.Confined.withGuard (h : v.Confined p) {g : Option TryGuard}
    (hg : ∀ g', g = some g' →
      (∀ i x, Slots.get ⟨g'.frameSnap⟩ i = some x → x.RefsIn LocalRef) ∧
        p.OnlyInits ⟨g'.globalSnap⟩) : (v.withGuard g).Confined p :=
  ⟨h.globals, h.frame.args, h.frame.retVal, h.frame.locals, h.frame.registers, hg⟩

/-- An instruction that names no global and performs no syscall keeps a view confined, and hands
on no reference to a global. -/
theorem exec_confined (h : v.Confined p) (hops : ∀ op ∈ instr.operands, op.isGlobal = false)
    (hcall : instr.opcode.callsHandler = false) :
    (stateOf (v.exec host p instr)).Confined p ∧
      ∀ a w, v.exec host p instr = .ok a w → a.RefsIn LocalRef := by
  by_cases hguard : instr.opcode.setsGuard = true
  · obtain ⟨op, operands⟩ := instr
    cases op with
    | try_ =>
      rw [View.exec_try]
      cases Instruction.tryTargets ⟨.try_, operands⟩ with
      | ok t =>
        refine ⟨h.withGuard fun g' hg' => ?_, fun a w hw => ?_⟩
        · cases hg'
          exact ⟨h.frame.locals, h.globals⟩
        · cases hw
          trivial
      | error s => exact ⟨h, nofun⟩
    | catch_ | endTry =>
      refine ⟨h.withGuard nofun, fun a w hw => ?_⟩
      cases hw
      trivial
    | _ => cases hguard
  by_cases htmp : instr.opcode.setsTmp = true
  · obtain ⟨op, operands⟩ := instr
    cases op with
    | tmpBlock =>
      refine ⟨h.of_tmpFrames (.inl rfl), fun a w hw => ?_⟩
      cases hw
      trivial
    | endTmp =>
      by_cases hne : v.frame.tmpFrames = []
      · rw [View.exec_endTmp_nil hne]
        exact ⟨h, nofun⟩
      · obtain ⟨f, fs, hfs⟩ := List.exists_cons_of_ne_nil hne
        rw [View.exec_endTmp hne, hfs]
        refine ⟨h.of_tmpFrames (.inr ⟨f, hfs⟩), fun a w hw => ?_⟩
        cases hw
        trivial
    | _ => cases htmp
  have hcarries := executeInstruction_carries host p (within_local h hops) hcall
    (Bool.not_eq_true _ ▸ hguard) (Bool.not_eq_true _ ▸ htmp)
  constructor
  · have hplaces := hcarries.places
    rw [View.stateOf_exec] at hplaces
    have hpos := View.exec_position host p instr v
    exact h.of_places hplaces (congrArg (fun x => x.2.2) hpos)
      (View.exec_tryGuard host p instr v (Bool.not_eq_true _ ▸ hguard))
  · intro a w hw
    exact hcarries.action a _ (View.exec_run hw)

end Instructions

/-! ## Turns -/

/-- Whatever way a turn goes, it leaves an executor of `I`. -/
def Iteration.Leaves (I : Executor ω → Prop) : Iteration ω → Prop
  | .next e | .done _ e | .panic _ e | .exit _ e => I e

section Turns

variable {p : Program} {host : Host ω} {e : Executor ω}

theorem LocalRef.unpackRet (raw : U64) (t : JitType) : (unpackRet raw t).RefsIn LocalRef := by
  cases t <;> exact Value.refsIn_of_plain rfl rfl

theorem confined_new (i : Nat) {args : Value} (hargs : args.RefsIn LocalRef) :
    (CallFrame.new i args).Confined p :=
  ⟨hargs, Value.refsIn_null, nofun, nofun, nofun⟩

/-- A frame with another `$ret`. -/
theorem CallFrame.Confined.withRet {cf : CallFrame} (h : cf.Confined p) {ret : Value}
    (hret : ret.RefsIn LocalRef) : CallFrame.Confined p { cf with retVal := ret } :=
  ⟨h.args, hret, h.locals, h.registers, h.snapshot⟩

/-- The frames of a stack with another one on top. -/
theorem Executor.Confined.replace {cf cf' : CallFrame} {rest : List CallFrame}
    {g : GlobalRegister} {w : ω} (h : Executor.Confined p ⟨g, cf :: rest, w⟩)
    (hcf : cf.Confined p → cf'.Confined p) (w' : ω) :
    Executor.Confined p ⟨g, cf' :: rest, w'⟩ := by
  obtain ⟨hg, hframes⟩ := h
  obtain ⟨htop, hrest⟩ := List.forall_mem_cons.mp hframes
  exact ⟨hg, List.forall_mem_cons.mpr ⟨hcf htop, hrest⟩⟩

theorem Executor.Confined.onTopFrame (h : e.Confined p) {f : CallFrame → CallFrame}
    (hf : ∀ cf, cf.Confined p → (f cf).Confined p) :
    (onTopFrame f e).Leaves (Executor.Confined p) := by
  obtain ⟨g, stack, w⟩ := e
  cases stack with
  | nil => exact h
  | cons cf rest => exact h.replace (hf cf) w

theorem Executor.Confined.popFrame (h : e.Confined p) {ret : Value}
    (hret : ret.RefsIn LocalRef) : (popFrame ret e).Leaves (Executor.Confined p) := by
  obtain ⟨g, stack, w⟩ := e
  cases stack with
  | nil => exact h
  | cons cf rest =>
    obtain ⟨hg, hframes⟩ := h
    have hrest := (List.forall_mem_cons.mp hframes).2
    cases rest with
    | nil => exact ⟨hg, nofun⟩
    | cons caller below =>
      have hbelow : Executor.Confined p ⟨g, caller :: below, w⟩ := ⟨hg, hrest⟩
      exact hbelow.replace (fun hc => hc.withRet hret) w

/-- The JIT's values hold no reference. -/
theorem jitDispatch_refsIn (hjit : host.Unpacks) {i : Nat} {args ret : Value} {w w' : ω}
    (h : jitDispatch host i args w = (some ret, w')) : ret.RefsIn LocalRef := by
  unfold jitDispatch at h
  split at h
  · rename_i dispatch hdispatch
    obtain ⟨raw, t, rfl⟩ := hjit dispatch i args w ret w' hdispatch h
    exact .unpackRet raw t
  · cases h

theorem Executor.Confined.withWorld (h : e.Confined p) (w : ω) :
    Executor.Confined p { e with world := w } := ⟨h.globals, h.frames⟩

theorem Executor.Confined.callFunc (hjit : host.Unpacks) (h : e.Confined p) (i : Nat)
    {args : Value} (hargs : args.RefsIn LocalRef) :
    (callFunc host i args e).Leaves (Executor.Confined p) := by
  unfold Fasm.callFunc
  rcases hd : jitDispatch host i args e.world with ⟨_ | ret, w⟩
  · simp only
    split
    · exact h.withWorld w
    · exact ⟨h.globals, List.forall_mem_cons.mpr ⟨confined_new i hargs, h.frames⟩⟩
  · exact (h.withWorld w).onTopFrame fun cf hcf => hcf.withRet (jitDispatch_refsIn hjit hd)

theorem Executor.Confined.tailCall (hjit : host.Unpacks) (h : e.Confined p) (i : Nat)
    {args : Value} (hargs : args.RefsIn LocalRef) :
    (tailCall host i args e).Leaves (Executor.Confined p) := by
  unfold Fasm.tailCall
  rcases hd : jitDispatch host i args e.world with ⟨_ | ret, w⟩
  · refine (h.withWorld w).onTopFrame fun cf hcf => ?_
    exact ⟨hargs, Value.refsIn_null, nofun, hcf.registers, hcf.snapshot⟩
  · exact (h.withWorld w).popFrame (jitDispatch_refsIn hjit hd)

theorem Executor.Confined.perform (hjit : host.Unpacks) (h : e.Confined p) {a : Action}
    (ha : a.RefsIn LocalRef) : (perform host a e).Leaves (Executor.Confined p) := by
  cases a with
  | continue_ => exact h
  | jump t =>
    refine h.onTopFrame fun cf hcf => ?_
    exact ⟨hcf.args, hcf.retVal, hcf.locals, hcf.registers, hcf.snapshot⟩
  | callFunc i args => exact h.callFunc hjit i ha
  | tailCall i args => exact h.tailCall hjit i ha
  | return_ v => exact h.popFrame ha
  | halt => exact h

/-- A guard brings back what it has seen. -/
theorem Executor.Confined.deliver (h : e.Confined p) (func : FunctionDef) (ip : Nat)
    (f : Fault) : (deliver func ip f e).Leaves (Executor.Confined p) := by
  obtain ⟨g, stack, w⟩ := e
  cases stack with
  | nil => exact h
  | cons cf rest =>
    unfold Fasm.deliver
    cases hguard : cf.tryGuard with
    | none =>
      simp only [hguard]
      exact h
    | some t =>
      obtain ⟨hg, hframes⟩ := h
      obtain ⟨htop, hrest⟩ := List.forall_mem_cons.mp hframes
      obtain ⟨hlocals, hglobals⟩ := htop.snapshot t hguard
      simp only [hguard]
      refine ⟨hglobals, List.forall_mem_cons.mpr ⟨?_, hrest⟩⟩
      exact ⟨htop.args, Value.refsIn_int _ _, hlocals, htop.registers, nofun⟩

/-- A turn keeps the executor confined. -/
theorem Executor.Confined.iterate (hops : p.NamesNoGlobal) (hcalls : p.PerformsNoSyscall)
    (hjit : host.Unpacks) (h : e.Confined p) :
    (iterate host p e).Leaves (Executor.Confined p) := by
  obtain ⟨g, stack, w⟩ := e
  cases stack with
  | nil => exact h
  | cons cf rest =>
    have htop : cf.Confined p := h.frames cf List.mem_cons_self
    unfold Fasm.iterate
    cases hfunc : p.functions[cf.funcIdx]? with
    | none =>
      simp only [hfunc]
      exact h
    | some func =>
      cases hinstr : func.instructions[cf.ip]? with
      | none =>
        simp only [hfunc, hinstr]
        exact h.popFrame htop.retVal
      | some instr =>
        simp only [hfunc, hinstr]
        have hmem := List.mem_of_getElem? hfunc
        have hmem' := List.mem_of_getElem? hinstr
        have hview : View.Confined p ⟨{ cf with ip := cf.ip + 1 }, g, w⟩ :=
          ⟨h.globals, htop.args, htop.retVal, htop.locals, htop.registers, htop.snapshot⟩
        obtain ⟨hstate, haction⟩ := @exec_confined _ p _ instr host hview
          (hops func hmem instr hmem') (hcalls func hmem instr hmem')
        have hplug : executeInstruction host p instr
            ⟨g, { cf with ip := cf.ip + 1 } :: rest, w⟩ = mapState (·.plug rest)
              (View.exec host p instr ⟨{ cf with ip := cf.ip + 1 }, g, w⟩) :=
          View.exec_plug host p instr ⟨{ cf with ip := cf.ip + 1 }, g, w⟩ rest
        rw [hplug]
        have hrest : ∀ cf' ∈ rest, cf'.Confined p := fun cf' hcf' =>
          h.frames cf' (List.mem_cons_of_mem cf hcf')
        have hafter (v : View ω) (hv : v.Confined p) : (v.plug rest).Confined p :=
          ⟨hv.globals, List.forall_mem_cons.mpr ⟨hv.frame, hrest⟩⟩
        cases hexec : View.exec host p instr ⟨{ cf with ip := cf.ip + 1 }, g, w⟩ with
        | ok a v =>
          rw [hexec] at hstate
          exact (hafter v hstate).perform hjit (haction a v hexec)
        | error s v =>
          rw [hexec] at hstate
          have hv := hafter v hstate
          cases s with
          | fault f => exact hv.deliver func _ f
          | panic x => exact hv
          | exit c => exact hv

/-- So does the loop. -/
theorem Executor.Confined.runLoop (hops : p.NamesNoGlobal) (hcalls : p.PerformsNoSyscall)
    (hjit : host.Unpacks) (n : Nat) (h : e.Confined p) :
    (runLoop host p n e).Leaves (Executor.Confined p) := by
  induction n generalizing e with
  | zero => exact h
  | succ n ih =>
    have hturn := h.iterate hops hcalls hjit
    unfold Fasm.runLoop
    cases hit : Fasm.iterate host p e with
    | next e' =>
      rw [hit] at hturn
      exact ih hturn
    | done r e' =>
      rw [hit] at hturn
      exact hturn
    | panic x e' =>
      rw [hit] at hturn
      exact hturn
    | exit c e' =>
      rw [hit] at hturn
      exact hturn

end Turns

/-! ## Handlers that are not called -/

/-- The host without its syscalls. -/
def Host.mute (host : Host ω) : Host ω := { host with syscalls := fun _ => none }

section Mute

variable {p : Program} (host : Host ω)

theorem mute_ignoresGlobals : host.mute.IgnoresGlobals := by
  intro id handler h
  cases h

theorem executeInstruction_mute {instr : Instruction}
    (hcall : instr.opcode.callsHandler = false) :
    executeInstruction host p instr = executeInstruction host.mute p instr := by
  obtain ⟨op, operands⟩ := instr
  cases op with
  | syscall | asyncSyscall => cases hcall
  | _ => rfl

theorem iterate_mute (hcalls : p.PerformsNoSyscall) (e : Executor ω) :
    iterate host p e = iterate host.mute p e := by
  unfold iterate
  cases e.callStack with
  | nil => rfl
  | cons cf rest =>
    cases hfunc : p.functions[cf.funcIdx]? with
    | none => simp only [hfunc]
    | some func =>
      cases hinstr : func.instructions[cf.ip]? with
      | none => simp only [hfunc, hinstr]
      | some instr =>
        have hcall := hcalls func (List.mem_of_getElem? hfunc) instr (List.mem_of_getElem? hinstr)
        simp only [hfunc, hinstr, executeInstruction_mute host hcall]
        rfl

theorem runLoop_mute (hcalls : p.PerformsNoSyscall) (n : Nat) (e : Executor ω) :
    runLoop host p n e = runLoop host.mute p n e := by
  induction n generalizing e with
  | zero => rfl
  | succ n ih =>
    unfold runLoop
    rw [iterate_mute host hcalls e]
    cases iterate host.mute p e with
    | next e' => exact ih e'
    | _ => rfl

end Mute

/-! ## Calls on one executor -/

/-- An executor on which only `p` has been run, with arguments that hold no reference to a
global. -/
inductive Used (host : Host ω) (p : Program) : Executor ω → Prop
  | new (w : ω) : Used host p (.new w)
  /-- a call that ended: in `Ok`, by `HALT`, in `Err`, or by a panic that the caller caught -/
  | called {e : Executor ω} (h : Used host p e) {func : String} {args : Value}
    (hargs : args.RefsIn LocalRef) {n : Nat} {t : Ending} {e' : Executor ω}
    (hrun : runNamed host p func args n e = t.iteration e') : Used host p e'
  /-- `reset_call_stack` -/
  | reset {e : Executor ω} (h : Used host p e) : Used host p { e with callStack := [] }

section Reuse

variable {host : Host ω} {p : Program} {e : Executor ω}

/-- The initialisers set only what they initialise. -/
theorem onlyInits_foldl {inits : List Instruction} (hsub : inits ⊆ p.globalInits)
    {g : GlobalRegister} (hg : p.OnlyInits g) : p.OnlyInits (inits.foldl globalInit g) := by
  induction inits generalizing g with
  | nil => exact hg
  | cons instr inits ih =>
    obtain ⟨hinstr, hinits⟩ := List.cons_subset.mp hsub
    refine ih hinits fun i => ?_
    rw [globalInit_eq]
    cases hinit : instr.globalInit? with
    | none => exact hg i
    | some r =>
      obtain ⟨idx, v⟩ := r
      by_cases hidx : idx.toNat = i
      · exact .inl ⟨instr, hinstr, idx, v, hinit, hidx⟩
      · simp only [Slots.get_set_of_ne _ hidx]
        exact hg i

theorem Executor.Confined.start (h : e.Confined p) (func : String) {args : Value}
    (hargs : args.RefsIn LocalRef) : (start p func args e).Leaves (Executor.Confined p) := by
  have hg := onlyInits_foldl (List.Subset.refl p.globalInits) h.globals
  unfold Fasm.start
  cases p.getFunctionIndex func with
  | none => exact ⟨hg, h.frames⟩
  | some i => exact ⟨hg, List.forall_mem_cons.mpr ⟨confined_new i hargs, h.frames⟩⟩

/-- Whatever has been run, the executor is confined. -/
theorem Used.confined (hops : p.NamesNoGlobal) (hcalls : p.PerformsNoSyscall)
    (hjit : host.Unpacks) (h : Used host p e) : e.Confined p := by
  induction h with
  | new w => exact ⟨fun i => .inr rfl, nofun⟩
  | reset _ ih => exact ⟨ih.globals, nofun⟩
  | @called e _ func args hargs n t e' hrun ih =>
    have hleaves : (runNamed host p func args n e).Leaves (Executor.Confined p) := by
      have hstart := ih.start func hargs
      unfold runNamed
      cases hs : Fasm.start p func args e with
      | next e₁ =>
        rw [hs] at hstart
        exact Executor.Confined.runLoop hops hcalls hjit n hstart
      | done r e₁ =>
        rw [hs] at hstart
        exact hstart
      | panic x e₁ =>
        rw [hs] at hstart
        exact hstart
      | exit c e₁ =>
        rw [hs] at hstart
        exact hstart
    rw [hrun] at hleaves
    cases t <;> exact hleaves

/-- **Reuse of an executor.**  Take a program whose instructions name no global slots and perform
no syscalls.  Whatever calls of it have been made on an executor with arguments that hold no
reference to a global, and however they have ended: if they have left no frame on the call
stack, then the next call, with any arguments, does what it does on a new executor, turn by turn
and to the same result. -/
theorem executor_reusable (hops : p.NamesNoGlobal) (hcalls : p.PerformsNoSyscall)
    (hjit : host.Unpacks) (h : Used host p e) (hstack : e.callStack = []) (func : String)
    (args : Value) (n : Nat) :
    (runNamed host p func args n e).Alike (runNamed host p func args n (.new e.world)) := by
  have hglobals := (h.confined hops hcalls hjit).globals
  have hget : (p.globalInits.foldl globalInit e.globals).get =
      (p.globalInits.foldl globalInit Slots.new).get := by
    refine globalInits_get p.globalInits fun i => ?_
    rcases hglobals i with hi | hi
    · exact .inl hi
    · exact .inr hi
  unfold runNamed start
  cases p.getFunctionIndex func with
  | none =>
    refine .done (Executor.seen_eq hget ?_ rfl)
    exact congrArg (List.map CallFrame.seen) hstack
  | some i =>
    simp only
    rw [runLoop_mute host hcalls, runLoop_mute host hcalls]
    refine runLoop_alike (mute_ignoresGlobals host) p n (Executor.seen_eq hget ?_ rfl)
    exact congrArg (fun s => List.map CallFrame.seen (CallFrame.new i args :: s)) hstack

end Reuse

section Example

/-- `Main` halts with its return still to come, and `Other` returns 3. -/
def haltingProgram : Program :=
  ⟨1, [], [⟨"Main", [], [⟨.halt, []⟩, ⟨.ret, [.imm (.int .int32 7)]⟩]⟩,
    ⟨"Other", [], [⟨.ret, [.imm (.int .int32 3)]⟩]⟩]⟩

/-- `Writer` writes 5 through the reference that it is passed, `Reader` reads through it. -/
def referenceProgram : Program :=
  ⟨1, [], [⟨"Writer", [], [⟨.mov, [.slot (.builtIn .args), .slot (.local_ 0)]⟩,
      ⟨.mov, [.imm (.int .int32 5), .slot (.derefLocal 0)]⟩, ⟨.ret, []⟩]⟩,
    ⟨"Reader", [], [⟨.mov, [.slot (.builtIn .args), .slot (.local_ 0)]⟩,
      ⟨.ret, [.slot (.derefLocal 0)]⟩]⟩]⟩

theorem haltingProgram_namesNoGlobal : haltingProgram.NamesNoGlobal := by
  unfold Program.NamesNoGlobal haltingProgram
  simp [Operand.isGlobal]

theorem haltingProgram_performsNoSyscall : haltingProgram.PerformsNoSyscall := by
  unfold Program.PerformsNoSyscall haltingProgram
  simp [Opcode.callsHandler]

theorem bare_unpacks : Host.bare.Unpacks := by
  intro dispatch i args w v w' hjit
  cases hjit

/-- After a call of `Other`, another one does what it does on a new executor. -/
theorem executor_reusable_other :
    (runNamed Host.bare haltingProgram "Other" .null 2 ⟨.new, [], ()⟩).Alike
      (runNamed Host.bare haltingProgram "Other" .null 2 (.new ())) := by
  have hrun : runNamed Host.bare haltingProgram "Other" .null 1 (.new ()) =
      (Ending.result (.ok (.int .int32 3))).iteration ⟨.new, [], ()⟩ := rfl
  exact executor_reusable haltingProgram_namesNoGlobal haltingProgram_performsNoSyscall
    bare_unpacks (.called (.new ()) Value.refsIn_null hrun) rfl "Other" .null 2

/-- After `Main` has halted, its frame is the caller of the next run: `Other` returns 3 into it,
and the run returns the 7 of `Main`.  After `Writer` has been passed a reference to a global and
has returned, `Reader` finds 5 there, which it does not on a new executor. -/
theorem executor_not_reusable :
    (haltingProgram.NamesNoGlobal ∧ haltingProgram.PerformsNoSyscall ∧
      ∃ e, runNamed Host.bare haltingProgram "Main" .null 1 (.new ()) = .done (.ok .null) e ∧
        (∃ e', runNamed Host.bare haltingProgram "Other" .null 2 e =
          .done (.ok (.int .int32 7)) e') ∧
        ∃ e', runNamed Host.bare haltingProgram "Other" .null 2 (.new ()) =
          .done (.ok (.int .int32 3)) e') ∧
    referenceProgram.NamesNoGlobal ∧ referenceProgram.PerformsNoSyscall ∧
      ∃ e, runNamed Host.bare referenceProgram "Writer" (.refMut true 0) 3 (.new ()) =
          .done (.ok .null) e ∧
        (∃ e', runNamed Host.bare referenceProgram "Reader" (.refMut true 0) 2 e =
          .done (.ok (.int .int32 5)) e') ∧
        ∃ r e', runNamed Host.bare referenceProgram "Reader" (.refMut true 0) 2 (.new ()) =
          .done (.error r) e' := by
  refine ⟨⟨haltingProgram_namesNoGlobal, haltingProgram_performsNoSyscall, _, rfl, ⟨_, rfl⟩,
    ⟨_, rfl⟩⟩, ?_, ?_, _, rfl, ⟨_, rfl⟩, ⟨_, _, rfl⟩⟩
  · unfold Program.NamesNoGlobal referenceProgram
    simp [Operand.isGlobal]
  · unfold Program.PerformsNoSyscall referenceProgram
    simp [Opcode.callsHandler]

end Example

end Fasm
