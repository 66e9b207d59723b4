import Fasm.Vm.WellFormed

/-!
# Tail calls

A `TAIL_CALL` that is followed by `RET $ret` does what a `CALL` in its place does.  The
run of the program with calls keeps a suspended caller for every tail call; each of
them only passes the value of its callee on, so the two runs are in step as pushdown
machines.
-/

namespace Fasm

open Pushdown (Move Config Machine)

variable {ω : Type} {host : Host ω} {p : Program}

/-! ## The program with calls -/

/-- `TAIL_CALL` becomes `CALL`. -/
def Instruction.untail (instr : Instruction) : Instruction :=
  if instr.opcode = .tailCall then { instr with opcode := .call } else instr

/-- Every `TAIL_CALL` of a function becomes `CALL`. -/
def FunctionDef.untail (f : FunctionDef) : FunctionDef :=
  { f with instructions := f.instructions.map Instruction.untail }

/-- Every `TAIL_CALL` of a program becomes `CALL`. -/
def Program.untail (p : Program) : Program :=
  { p with
    globalInits := p.globalInits.map Instruction.untail
    functions := p.functions.map FunctionDef.untail }

/-- Each `TAIL_CALL` is immediately followed by `RET $ret`. -/
def Program.TailsReturn (p : Program) : Prop :=
  ∀ f ∈ p.functions, ∀ i instr, f.instructions[i]? = some instr → instr.opcode = .tailCall →
    f.instructions[i + 1]? = some ⟨.ret, [.slot (.builtIn .ret)]⟩

/-- A `TAIL_CALL` on top of the stack is executed without a guard and outside `TMP` blocks. -/
def PlainTails (p : Program) (e : Executor ω) : Prop :=
  ∀ cf below func instr, e.callStack = cf :: below → Fetch p cf func instr →
    instr.opcode = .tailCall → cf.tryGuard = none ∧ cf.tmpFrames = []

/-- `run_named` on `e₀` ends with the result `r` and leaves `e`. -/
def RunsTo (host : Host ω) (p : Program) (func : String) (args : Value) (e₀ : Executor ω)
    (r : Except String Value) (e : Executor ω) : Prop :=
  start p func args e₀ = .done r e ∨
    ∃ e₁ e₂, start p func args e₀ = .next e₁ ∧ Relation.ReflTransGen (Step host p) e₁ e₂ ∧
      Ends host p e₂ (.result r) e

section Untail

variable {instr : Instruction}

@[simp] theorem untail_operands : instr.untail.operands = instr.operands := by
  unfold Instruction.untail
  split <;> rfl

theorem untail_of_ne (h : instr.opcode ≠ .tailCall) : instr.untail = instr := if_neg h

theorem untail_of_eq (h : instr.opcode = .tailCall) :
    instr.untail = ⟨.call, instr.operands⟩ := if_pos h

@[simp] theorem untail_functions_length : p.untail.functions.length = p.functions.length :=
  List.length_map _

theorem untail_getFunctionIndex (name : String) :
    p.untail.getFunctionIndex name = p.getFunctionIndex name := by
  simp only [Program.getFunctionIndex, Program.untail, List.findIdx?_map]
  rfl

theorem globalInit_untail (g : GlobalRegister) (instr : Instruction) :
    globalInit g instr.untail = globalInit g instr := by
  by_cases h : instr.opcode = .tailCall
  · rw [untail_of_eq h]
    simp [globalInit, h]
  · rw [untail_of_ne h]

/-- A run starts alike. -/
theorem start_untail (func : String) (args : Value) (e₀ : Executor ω) :
    start p.untail func args e₀ = start p func args e₀ := by
  have hinits : p.untail.globalInits.foldl globalInit e₀.globals =
      p.globalInits.foldl globalInit e₀.globals := by
    simp only [Program.untail, List.foldl_map, globalInit_untail]
  simp only [start, hinits, untail_getFunctionIndex]

/-- A call target depends on the operands and the number of functions only. -/
theorem callTarget_untail (op op' : Opcode) (operands : List Operand) (e : Executor ω) :
    callTarget ⟨op, operands⟩ p.untail e = callTarget ⟨op', operands⟩ p e := by
  simp only [callTarget, untail_functions_length]
  rfl

/-- Other instructions see the functions of the program only through their number. -/
theorem executeInstruction_untail (h : instr.opcode ≠ .tailCall) :
    executeInstruction host p.untail instr = executeInstruction host p instr := by
  obtain ⟨op, operands⟩ := instr
  cases op with
  | tailCall => exact absurd rfl h
  | call => simp only [executeInstruction, callOp, callTarget_untail .call .call]
  | asyncCall => simp only [executeInstruction, callOp, callTarget_untail .asyncCall .asyncCall]
  | _ => rfl

theorem exec_untail (h : instr.opcode ≠ .tailCall) (v : View ω) :
    v.exec host p.untail instr = v.exec host p instr := by
  simp only [View.exec, executeInstruction_untail h]

theorem Fetch.untail {cf : CallFrame} {func : FunctionDef} (h : Fetch p cf func instr) :
    Fetch p.untail cf func.untail instr.untail where
  func_eq := by simp only [Program.untail, List.getElem?_map, h.func_eq, Option.map_some]
  instr_eq := by simp only [FunctionDef.untail, List.getElem?_map, h.instr_eq, Option.map_some]

end Untail

/-! ## In step -/

/-- Away from tail calls the two programs move alike. -/
theorem move_untail {v : View ω}
    (h : ∀ func instr, Fetch p v.frame func instr → instr.opcode ≠ .tailCall) :
    v.move host p.untail = v.move host p := by
  cases hf : p.functions[v.frame.funcIdx]? with
  | none =>
    have hf' : p.untail.functions[v.frame.funcIdx]? = none := by
      simp only [Program.untail, List.getElem?_map, hf, Option.map_none]
    simp only [View.move, hf, hf']
  | some func =>
    cases hi : func.instructions[v.frame.ip]? with
    | none =>
      have hf' : p.untail.functions[v.frame.funcIdx]? = some func.untail := by
        simp only [Program.untail, List.getElem?_map, hf, Option.map_some]
      have hi' : func.untail.instructions[v.frame.ip]? = none := by
        simp only [FunctionDef.untail, List.getElem?_map, hi, Option.map_none]
      simp only [View.move, hf, hf', hi, hi']
    | some instr =>
      have hfetch : Fetch p v.frame func instr := ⟨hf, hi⟩
      have hne := h func instr hfetch
      rw [View.move_of_fetch host hfetch, View.move_of_fetch host hfetch.untail, untail_of_ne hne,
        exec_untail hne]
      rfl

variable (host) in
/-- What a call does on a view. -/
theorem exec_callOp (instr : Instruction) (q : Program) {action : Nat → Value → Action}
    (h : executeInstruction host q instr = callOp instr q action) (v : View ω) :
    v.exec host q instr =
      match callTarget instr q (v.plug []) with
      | .ok (i, args) => .ok (action i args) v
      | .error s => .error s v := by
  rw [View.exec, h]
  cases ht : callTarget instr q (v.plug []) with
  | ok r => simp only [callOp, bind, EStateM.bind, ExecM.reads, ExecM.lift, ht]; rfl
  | error s => simp only [callOp, bind, EStateM.bind, ExecM.reads, ExecM.lift, ht]; rfl

variable (host p) in
/-- Executing `CALL` in the place of `TAIL_CALL`: it stops alike, or asks for the same callee. -/
theorem exec_tailCall (operands : List Operand) (v : View ω) :
    (∃ s, v.exec host p ⟨.tailCall, operands⟩ = .error s v ∧
      v.exec host p.untail ⟨.call, operands⟩ = .error s v) ∨
    ∃ i args, v.exec host p ⟨.tailCall, operands⟩ = .ok (.tailCall i args) v ∧
      v.exec host p.untail ⟨.call, operands⟩ = .ok (.callFunc i args) v := by
  have htail := exec_callOp host ⟨.tailCall, operands⟩ p rfl v
  have hcall := exec_callOp host ⟨.call, operands⟩ p.untail rfl v
  rw [callTarget_untail .call .tailCall] at hcall
  cases ht : callTarget ⟨.tailCall, operands⟩ p (v.plug []) with
  | error s =>
    rw [ht] at htail hcall
    exact .inl ⟨s, htail, hcall⟩
  | ok r =>
    rw [ht] at htail hcall
    exact .inr ⟨r.1, r.2, htail, hcall⟩

/-- `RET $ret` after a call leaves with the callee's value. -/
theorem passes_untail (hp : p.TailsReturn) {cf : CallFrame} {func : FunctionDef}
    {instr : Instruction} (hfetch : Fetch p cf func instr) (hop : instr.opcode = .tailCall) :
    (machine host p).Passes (machine host p.untail).move { cf with ip := cf.ip + 1 } := by
  intro r g
  have hmem : func ∈ p.functions := List.mem_of_getElem? hfetch.func_eq
  have hnext := hp func hmem _ _ hfetch.instr_eq hop
  have hfetch' : Fetch p.untail { cf with ip := cf.ip + 1, retVal := r } func.untail
      (Instruction.untail ⟨.ret, [.slot (.builtIn .ret)]⟩) := Fetch.untail ⟨hfetch.func_eq, hnext⟩
  exact View.move_of_fetch host (v := ⟨_, g.1, g.2⟩) hfetch'

/-- With no guard and no `TMP` block open, the frame that a tail call resets is a new one. -/
theorem reset_eq_new {cf : CallFrame} (hguard : cf.tryGuard = none) (htmp : cf.tmpFrames = [])
    (i : Nat) (args : Value) :
    { cf with funcIdx := i, ip := 0, frame := .new, args, retVal := .null } =
      CallFrame.new i args := by
  simp only [CallFrame.new, hguard, htmp]

/-- A program with tail calls replaces frames that only pass a value on. -/
theorem replaces_untail (hjit : host.jit = none) (hp : p.TailsReturn) {e : Executor ω}
    (hplain : PlainTails p e) {cf : CallFrame} {below : List CallFrame}
    (hstack : e.callStack = cf :: below) :
    (machine host p).Replaces (machine host p.untail).move cf (e.globals, e.world) := by
  by_cases h : ∀ func instr, Fetch p cf func instr → instr.opcode ≠ .tailCall
  · exact .inl (move_untail (v := ⟨cf, e.globals, e.world⟩) h).symm
  simp only [Classical.not_forall, Classical.not_not] at h
  obtain ⟨func, ⟨op, operands⟩, hfetch, hop⟩ := h
  obtain rfl : op = .tailCall := hop
  obtain ⟨hguard, htmp⟩ := hplain cf below func _ hstack hfetch rfl
  have hfetch' : Fetch p.untail cf func.untail ⟨.call, operands⟩ := hfetch.untail
  have hmove := View.move_of_fetch host (v := ⟨cf, e.globals, e.world⟩) hfetch
  have hmove' := View.move_of_fetch host (v := ⟨cf, e.globals, e.world⟩) hfetch'
  have hj : ∀ i args, jitDispatch host i args e.world = (none, e.world) := fun i args => by
    simp only [jitDispatch, hjit]
  rcases exec_tailCall host p operands (View.advance ⟨cf, e.globals, e.world⟩) with
    ⟨s, htail, hcall⟩ | ⟨i, args, htail, hcall⟩
  · rw [htail] at hmove
    rw [hcall] at hmove'
    exact .inl (hmove.trans hmove'.symm)
  · rw [htail] at hmove
    rw [hcall] at hmove'
    refine .inr ⟨{ cf with ip := cf.ip + 1 }, .new i args, (e.globals, e.world), ?_,
      passes_untail hp hfetch rfl, ?_⟩
    · refine hmove'.trans ?_
      simp only [View.settle, View.act, View.advance, hj]
    · refine hmove.trans ?_
      simp only [View.settle, View.act, View.advance, hj]
      rw [← reset_eq_new hguard htmp]

/-- **`TAIL_CALL` equals `CALL` followed by `RET $ret`.**  Where each `TAIL_CALL` is followed by
`RET $ret` and none is executed under a guard or in a `TMP` block, a result of the program with
calls, other than a stack overflow, is the result of the program with tail calls, with the same
globals. -/
theorem tailCall_eq_call (hjit : host.jit = none) (hp : p.TailsReturn) {func : String}
    {args : Value} {e₀ e' : Executor ω} {r : Except String Value}
    (hplain : ∀ e, RunReaches host p func args e₀ e → PlainTails p e)
    (hrun : RunsTo host p.untail func args e₀ r e')
    (hr : r ≠ .error Fault.stackOverflow.display) :
    ∃ e, RunsTo host p func args e₀ r e ∧ e.globals = e'.globals := by
  rcases hrun with hdone | ⟨e₁, e₂, hstart, hsteps, hend⟩
  · exact ⟨e', .inl (start_untail (p := p) func args e₀ ▸ hdone), rfl⟩
  rw [start_untail] at hstart
  have hne : e₂.callStack ≠ [] := by
    intro hnil
    cases e₂
    subst hnil
    cases hend
  have hrep : ∀ d f s, (machine host p).Steps e₁.config d → d.stack = f :: s →
      (machine host p).Replaces (machine host p.untail).move f d.shared := by
    intro d f s hd hs
    have hreach : RunReaches host p func args e₀ (ofConfig d) := ⟨e₁, hstart, steps_ofConfig hd⟩
    exact replaces_untail hjit hp (hplain _ hreach) hs
  have hin : (machine host p).InStep (machine host p.untail).move e₁.config e₁.config := by
    obtain ⟨i, -, hstack, -⟩ := start_eq hstart
    rw [Executor.config, hstack]
    exact .top (.refl _)
  obtain ⟨d, c, hd, hc, hshared⟩ := hin.run hrep (steps_config hsteps) ((ends_iff hne).mp hend)
    fun ht => hr (Ending.result.inj ht)
  refine ⟨ofConfig c, .inr ⟨e₁, ofConfig d, hstart, steps_ofConfig hd, ?_⟩,
    congrArg Prod.fst hshared⟩
  exact (ends_iff (e := ofConfig d) hc.stack_ne_nil).mpr hc

section Example

/-- `Main` tail-calls `f`, which returns 7. -/
def tailMain : Program :=
  ⟨1, [], [⟨"Main", [], [⟨.tailCall, [.funcRef 1, .imm .null]⟩,
      ⟨.ret, [.slot (.builtIn .ret)]⟩]⟩,
    ⟨"f", [], [⟨.ret, [.imm (.int .int32 7)]⟩]⟩]⟩

private theorem tailMain_tailsReturn : tailMain.TailsReturn := by
  intro f hf i instr hi hop
  rcases List.mem_cons.mp hf with rfl | hf
  · match i, hi with
    | 0, _ => rfl
    | 1, hi => cases hi; cases hop
    | i + 2, hi => cases hi
  · rw [List.mem_singleton.mp hf] at hi
    match i, hi with
    | 0, hi => cases hi; cases hop
    | i + 1, hi => cases hi

private def tailMainFrames (funcIdx : Nat) (args : Value) : Executor Unit :=
  ⟨.new, [.new funcIdx args], ()⟩

private theorem tailMain_plain (e : Executor Unit)
    (h : RunReaches Host.bare tailMain "Main" (.struct []) (.new ()) e) : PlainTails tailMain e := by
  obtain ⟨e₁, hstart, hsteps⟩ := h
  have he : e = tailMainFrames 0 (.struct []) ∨ e = tailMainFrames 1 .null := by
    induction hsteps with
    | refl => exact .inl (Iteration.next.inj hstart).symm
    | tail _ hstep ih =>
      rcases ih with rfl | rfl
      · exact .inr (Iteration.next.inj hstep).symm
      · cases hstep
  intro cf below func instr hstack _ _
  rcases he with rfl | rfl <;> cases hstack <;> exact ⟨rfl, rfl⟩

private theorem tailMain_untail_runs :
    RunsTo Host.bare tailMain.untail "Main" (.struct []) (.new ()) (.ok (.int .int32 7))
      (.new ()) :=
  .inr ⟨_, _, rfl, .tail (.tail .refl rfl) rfl, rfl⟩

theorem tailCall_eq_call_tailMain :
    ∃ e, RunsTo Host.bare tailMain "Main" (.struct []) (.new ()) (.ok (.int .int32 7)) e ∧
      e.globals = (Executor.new ()).globals :=
  tailCall_eq_call rfl tailMain_tailsReturn tailMain_plain tailMain_untail_runs nofun

end Example

end Fasm
