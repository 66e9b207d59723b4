import Fasm.Vm.Machine

/-!
# What one turn can do

`Moves` lists the ways a turn of the run loop can go, each with everything the turn
looked at and did.  Every invariant of runs is proved by cases on it.
-/

namespace Fasm

open Pushdown (Move Config Machine)

variable {ω : Type} {host : Host ω} {p : Program}

/-- The run loop fetches `instr` from `func` for the frame. -/
structure Fetch (p : Program) (cf : CallFrame) (func : FunctionDef) (instr : Instruction) :
    Prop where
  func_eq : p.functions[cf.funcIdx]? = some func
  instr_eq : func.instructions[cf.ip]? = some instr

/-- The ways a turn on the view `v` can go. -/
inductive Moves (host : Host ω) (p : Program) (v : View ω) : LoopMove ω → Prop
  | badIndex (h : p.functions[v.frame.funcIdx]? = none) :
    Moves host p v (.stop (.result (.error (badIndexError v.frame.funcIdx))) v.frame v.shared)
  /-- the implicit return at the end of a function -/
  | fallOff {func} (hf : p.functions[v.frame.funcIdx]? = some func)
    (hi : func.instructions[v.frame.ip]? = none) :
    Moves host p v (.leave v.frame.retVal v.shared)
  | goOn {func instr w} (hfetch : Fetch p v.frame func instr)
    (hexec : v.advance.exec host p instr = .ok .continue_ w) :
    Moves host p v (.stay w.frame w.shared)
  | jump {func instr w target} (hfetch : Fetch p v.frame func instr)
    (hexec : v.advance.exec host p instr = .ok (.jump target) w) :
    Moves host p v (.stay { w.frame with ip := target } w.shared)
  | call {func instr w i args world} (hfetch : Fetch p v.frame func instr)
    (hexec : v.advance.exec host p instr = .ok (.callFunc i args) w)
    (hjit : jitDispatch host i args w.world = (none, world)) :
    Moves host p v (.enter w.frame (.new i args) (w.globals, world))
  | callJit {func instr w i args ret world} (hfetch : Fetch p v.frame func instr)
    (hexec : v.advance.exec host p instr = .ok (.callFunc i args) w)
    (hjit : jitDispatch host i args w.world = (some ret, world)) :
    Moves host p v (.stay { w.frame with retVal := ret } (w.globals, world))
  | tail {func instr w i args world} (hfetch : Fetch p v.frame func instr)
    (hexec : v.advance.exec host p instr = .ok (.tailCall i args) w)
    (hjit : jitDispatch host i args w.world = (none, world)) :
    Moves host p v (.stay
      { w.frame with funcIdx := i, ip := 0, frame := .new, args, retVal := .null }
      (w.globals, world))
  | tailJit {func instr w i args ret world} (hfetch : Fetch p v.frame func instr)
    (hexec : v.advance.exec host p instr = .ok (.tailCall i args) w)
    (hjit : jitDispatch host i args w.world = (some ret, world)) :
    Moves host p v (.leave ret (w.globals, world))
  | ret {func instr w val} (hfetch : Fetch p v.frame func instr)
    (hexec : v.advance.exec host p instr = .ok (.return_ val) w) :
    Moves host p v (.leave val w.shared)
  | halt {func instr w} (hfetch : Fetch p v.frame func instr)
    (hexec : v.advance.exec host p instr = .ok .halt w) :
    Moves host p v (.stop (.result (.ok .null)) w.frame w.shared)
  | caught {func instr w f g} (hfetch : Fetch p v.frame func instr)
    (hexec : v.advance.exec host p instr = .error (.fault f) w)
    (hguard : w.frame.tryGuard = some g) :
    Moves host p v (.stay (w.frame.rollback g f) (w.globals.restore g.globalSnap, w.world))
  | unhandled {func instr w f} (hfetch : Fetch p v.frame func instr)
    (hexec : v.advance.exec host p instr = .error (.fault f) w)
    (hguard : w.frame.tryGuard = none) :
    Moves host p v (.stop (.result (.error (unhandled func v.frame.ip f))) w.frame w.shared)
  | panic {func instr w x} (hfetch : Fetch p v.frame func instr)
    (hexec : v.advance.exec host p instr = .error (.panic x) w) :
    Moves host p v (.stop (.panic x) w.frame w.shared)
  | exit {func instr w c} (hfetch : Fetch p v.frame func instr)
    (hexec : v.advance.exec host p instr = .error (.exit c) w) :
    Moves host p v (.stop (.exit c) w.frame w.shared)

variable (host) in
/-- With a fetched instruction, a turn settles what the instruction returns. -/
theorem View.move_of_fetch {v : View ω} {func : FunctionDef} {instr : Instruction}
    (h : Fetch p v.frame func instr) :
    v.move host p = View.settle host func v.frame.ip (v.advance.exec host p instr) := by
  simp only [View.move, h.func_eq, h.instr_eq]

/-- A turn goes in one of these ways. -/
theorem moves (v : View ω) : Moves host p v (v.move host p) := by
  cases hf : p.functions[v.frame.funcIdx]? with
  | none =>
    simp only [View.move, hf]
    exact .badIndex hf
  | some func =>
    cases hi : func.instructions[v.frame.ip]? with
    | none =>
      simp only [View.move, hf, hi]
      exact .fallOff hf hi
    | some instr =>
      have hfetch : Fetch p v.frame func instr := ⟨hf, hi⟩
      rw [View.move_of_fetch host hfetch]
      cases hexec : v.advance.exec host p instr with
      | ok a w =>
        cases a with
        | continue_ => exact .goOn hfetch hexec
        | jump _ => exact .jump hfetch hexec
        | callFunc i args =>
          simp only [View.settle, View.act]
          rcases hjit : jitDispatch host i args w.world with ⟨_ | ret, world⟩
          · exact .call hfetch hexec hjit
          · exact .callJit hfetch hexec hjit
        | tailCall i args =>
          simp only [View.settle, View.act]
          rcases hjit : jitDispatch host i args w.world with ⟨_ | ret, world⟩
          · exact .tail hfetch hexec hjit
          · exact .tailJit hfetch hexec hjit
        | return_ _ => exact .ret hfetch hexec
        | halt => exact .halt hfetch hexec
      | error x w =>
        cases x with
        | fault f =>
          simp only [View.settle, View.fault]
          cases hguard : w.frame.tryGuard with
          | none => exact .unhandled hfetch hexec hguard
          | some g => exact .caught hfetch hexec hguard
        | panic _ => exact .panic hfetch hexec
        | exit _ => exact .exit hfetch hexec

/-- The ways a turn can go, from the move it makes. -/
theorem moves_of_eq {v : View ω} {m : LoopMove ω} (h : v.move host p = m) : Moves host p v m :=
  h ▸ moves v

/-! ## What instructions keep, at a fetched instruction -/

section Exec

variable {v : View ω} {instr : Instruction} {r : EStateM.Result Stop (View ω) Action}

theorem exec_funcIdx (h : v.advance.exec host p instr = r) :
    (stateOf r).frame.funcIdx = v.frame.funcIdx := by
  have hpos := View.exec_position host p instr v.advance
  rw [h] at hpos
  exact congrArg Prod.fst hpos

theorem exec_ip (h : v.advance.exec host p instr = r) :
    (stateOf r).frame.ip = v.frame.ip + 1 := by
  have hpos := View.exec_position host p instr v.advance
  rw [h] at hpos
  exact congrArg (fun x => x.2.1) hpos

theorem exec_args (h : v.advance.exec host p instr = r) :
    (stateOf r).frame.args = v.frame.args := by
  have hpos := View.exec_position host p instr v.advance
  rw [h] at hpos
  exact congrArg (fun x => x.2.2) hpos

theorem exec_guard (h : v.advance.exec host p instr = r) (hop : instr.opcode.setsGuard = false) :
    (stateOf r).frame.tryGuard = v.frame.tryGuard := by
  have hg := View.exec_tryGuard host p instr v.advance hop
  rw [h] at hg
  exact hg

/-- At a call the view is the one before the instruction, moved past it. -/
theorem exec_call_eq {w : View ω} {i : Nat} {args : Value}
    (h : v.advance.exec host p instr = .ok (.callFunc i args) w) : w = v.advance := by
  have hy := View.exec_yields host p instr _ h
  have hs := View.exec_call host p instr v.advance (by
    rcases List.mem_cons.mp hy.1 with ho | ho
    · simp [ho]
    · simp [List.mem_singleton.mp ho])
  rwa [h] at hs

theorem exec_tail_eq {w : View ω} {i : Nat} {args : Value}
    (h : v.advance.exec host p instr = .ok (.tailCall i args) w) : w = v.advance := by
  have hy := View.exec_yields host p instr _ h
  have hs := View.exec_call host p instr v.advance (by simp [hy.1])
  rwa [h] at hs

/-- A call names a function of the program. -/
theorem exec_call_lt {w : View ω} {i : Nat} {args : Value}
    (h : v.advance.exec host p instr = .ok (.callFunc i args) w) : i < p.functions.length :=
  (View.exec_yields host p instr _ h).2.1

theorem exec_tail_lt {w : View ω} {i : Nat} {args : Value}
    (h : v.advance.exec host p instr = .ok (.tailCall i args) w) : i < p.functions.length :=
  (View.exec_yields host p instr _ h).2.1

/-- A panic is one of a value operation, at an opcode that can panic. -/
theorem exec_panic {w : View ω} {x : Panic}
    (h : v.advance.exec host p instr = .error (.panic x) w) :
    instr.opcode.mayPanic = true ∧ x ≠ .emptyCallStack := by
  have hr := View.exec_raises host p instr v.advance
  rw [h] at hr
  rcases hr with hno | ⟨hop, hx⟩
  · exact absurd rfl (hno x)
  · exact ⟨hop, fun hx' => hx (congrArg Stop.panic hx')⟩

end Exec

end Fasm
