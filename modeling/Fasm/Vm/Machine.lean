import Fasm.Lib.Pushdown
import Fasm.Vm.Control
import Fasm.Vm.Run

/-!
# The run loop is a pushdown machine

One turn of `run_named`'s loop looks at the top frame, the globals and the world
only.  Written as a move of a pushdown machine it is `View.move`; `iterate_plug`
says that the loop does exactly what the machine does, on every stack.
-/

namespace Fasm

open Pushdown (Move Config Machine)

variable {ω : Type}

/-- How a run can end: with a result of `run_named`, by a panic, or by a handler that ends
the process. -/
inductive Ending where
  | result (r : Except String Value)
  | panic (x : Panic)
  | exit (code : U32)

/-- Moves of the run loop. -/
abbrev LoopMove (ω : Type) := Move CallFrame (GlobalRegister × ω) Value Ending

/-! ## Instructions on views -/

/-- The view of an executor whose stack is not empty. -/
def Executor.view? (e : Executor ω) : Option (View ω × List CallFrame) :=
  match e.callStack with
  | [] => none
  | cf :: rest => some (⟨cf, e.globals, e.world⟩, rest)

namespace View

/-- Run an instruction on the view alone. -/
def exec (host : Host ω) (p : Program) (instr : Instruction) (v : View ω) :
    EStateM.Result Stop (View ω) Action :=
  mapState (fun e => (e.view?.map Prod.fst).getD v) (executeInstruction host p instr (v.plug []))

@[simp] theorem view?_plug (v : View ω) (below : List CallFrame) :
    (v.plug below).view? = some (v, below) := rfl

/-- A focused instruction does on every stack what it does on the view. -/
theorem exec_of_focused {τ : Type} {keep : View ω → τ} {E : Stop → Prop} {host : Host ω}
    {p : Program} {instr : Instruction}
    (h : Focused View.plug keep E (executeInstruction host p instr)) (v : View ω) :
    keep (stateOf (v.exec host p instr)) = keep v ∧ RaisesIn E (v.exec host p instr) ∧
      ∀ below, executeInstruction host p instr (v.plug below) =
        mapState (·.plug below) (v.exec host p instr) := by
  obtain ⟨r, hk, hE, hr⟩ := h v
  have hexec : v.exec host p instr = r := by
    unfold exec
    rw [hr []]
    cases r <;> rfl
  rw [hexec]
  exact ⟨hk, hE, hr⟩

end View

/-- Every instruction runs on the top frame and keeps its function, `ip` and `$args`. -/
theorem executeInstruction_focused (host : Host ω) (p : Program) (instr : Instruction) :
    Focused View.plug View.position (Stop.allowed instr.opcode)
      (executeInstruction host p instr) := by
  by_cases h : instr.opcode.setsGuard = false
  · exact (executeInstruction_onTop host p h).keep_comp Prod.fst
  obtain ⟨op, operands⟩ := instr
  cases op with
  | try_ =>
    intro v
    cases ht : Instruction.tryTargets ⟨.try_, operands⟩ with
    | ok ct =>
      refine ⟨.ok .continue_ (v.withGuard (some (v.guard ct.1 ct.2))), rfl, trivial, fun c => ?_⟩
      exact (execTry_plug _ v c).trans (by rw [ht]; rfl)
    | error s =>
      refine ⟨.error s v, rfl, .inl (raises_tryTargets _ s ht), fun c => ?_⟩
      exact (execTry_plug _ v c).trans (by rw [ht]; rfl)
  | catch_ => exact fun v => ⟨.ok (.jump v.catchTarget) (v.withGuard none), rfl, trivial,
      fun _ => rfl⟩
  | endTry => exact fun v => ⟨.ok .continue_ (v.withGuard none), rfl, trivial, fun _ => rfl⟩
  | _ => exact absurd rfl h

namespace View

variable (host : Host ω) (p : Program) (instr : Instruction) (v : View ω)

theorem exec_plug (below : List CallFrame) :
    executeInstruction host p instr (v.plug below) =
      mapState (·.plug below) (v.exec host p instr) :=
  (exec_of_focused (executeInstruction_focused host p instr) v).2.2 below

/-- The same of the state that is left behind. -/
theorem stateOf_exec : stateOf (executeInstruction host p instr (v.plug [])) =
    (stateOf (v.exec host p instr)).plug [] := by
  rw [exec_plug]
  cases v.exec host p instr <;> rfl

theorem exec_position : (stateOf (v.exec host p instr)).position = v.position :=
  (exec_of_focused (executeInstruction_focused host p instr) v).1

theorem exec_raises : RaisesIn (Stop.allowed instr.opcode) (v.exec host p instr) :=
  (exec_of_focused (executeInstruction_focused host p instr) v).2.1

/-- Only `TRY`, `CATCH` and `ENDTRY` change the guard. -/
theorem exec_tryGuard (h : instr.opcode.setsGuard = false) :
    (stateOf (v.exec host p instr)).frame.tryGuard = v.frame.tryGuard :=
  congrArg Prod.snd (exec_of_focused (executeInstruction_onTop host p h) v).1

theorem exec_yields {a : Action} {w : View ω} (h : v.exec host p instr = .ok a w) :
    instr.Yields p a := by
  have hrun := exec_plug host p instr v []
  rw [h] at hrun
  exact executeInstruction_yields host p instr _ _ _ hrun

/-- A call leaves the frame, the globals and the world as they are. -/
theorem exec_call (h : instr.opcode ∈ [.call, .asyncCall, .tailCall]) :
    stateOf (v.exec host p instr) = v := by
  have hf : Focused View.plug id NoPanic (executeInstruction host p instr) := by
    obtain ⟨op, operands⟩ := instr
    cases op with
    | call | asyncCall | tailCall =>
      exact .bind (OnTop.reads (readable_callTarget (fun _ h => h) _ p)) fun _ => .pure _
    | _ => simp at h
  exact (exec_of_focused hf v).1

/-- A `TRY` with its two targets sets the guard, one without them faults. -/
theorem exec_try (operands : List Operand) :
    v.exec host p ⟨.try_, operands⟩ =
      match Instruction.tryTargets ⟨.try_, operands⟩ with
      | .ok (c, t) => .ok .continue_ (v.withGuard (some (v.guard c t)))
      | .error s => .error s v := by
  have hplug : executeInstruction host p ⟨.try_, operands⟩ (v.plug []) = _ := execTry_plug _ v []
  rw [exec, hplug]
  cases Instruction.tryTargets ⟨.try_, operands⟩ <;> rfl

theorem exec_catch (operands : List Operand) :
    v.exec host p ⟨.catch_, operands⟩ = .ok (.jump v.catchTarget) (v.withGuard none) := rfl

theorem exec_endTry (operands : List Operand) :
    v.exec host p ⟨.endTry, operands⟩ = .ok .continue_ (v.withGuard none) := rfl

variable {host p v} {operands : List Operand}

/-- An `END_TMP` with a `TMP` frame to close does not fault. -/
theorem exec_endTmp (hne : v.frame.tmpFrames ≠ []) :
    v.exec host p ⟨.endTmp, operands⟩ =
      .ok .continue_ { v with frame := { v.frame with tmpFrames := v.frame.tmpFrames.tail } } := by
  obtain ⟨f, fs, hfs⟩ := List.exists_cons_of_ne_nil hne
  have hplug : executeInstruction host p ⟨.endTmp, operands⟩ (v.plug []) =
      .ok .continue_ (View.plug { v with frame := { v.frame with tmpFrames := fs } } []) := by
    show (ExecM.onLast _ >>= fun _ => pure .continue_ : ExecM ω Action) (v.plug []) = _
    refine bind_run_ok (a := ()) ?_
    simp only [ExecM.onLast, plug, hfs]
  rw [exec, hplug, hfs]
  rfl

theorem exec_endTmp_nil (hnil : v.frame.tmpFrames = []) :
    v.exec host p ⟨.endTmp, operands⟩ = .error (.fault .indexOutOfBounds) v := by
  have hplug : executeInstruction host p ⟨.endTmp, operands⟩ (v.plug []) =
      .error (.fault .indexOutOfBounds) (v.plug []) := by
    refine bind_run_error ?_
    simp only [ExecM.onLast, plug, hnil]
  rw [exec, hplug]
  rfl

end View

/-! ## Moves -/

/-- What the view shares with all frames. -/
def View.shared (v : View ω) : GlobalRegister × ω := (v.globals, v.world)

namespace View

/-- The run loop's side of an action, on a view. -/
def act (host : Host ω) (a : Action) (w : View ω) : LoopMove ω :=
  match a with
  | .continue_ => .stay w.frame w.shared
  | .jump target => .stay { w.frame with ip := target } w.shared
  | .callFunc funcIdx args =>
    match jitDispatch host funcIdx args w.world with
    | (some ret, world) => .stay { w.frame with retVal := ret } (w.globals, world)
    | (none, world) => .enter w.frame (.new funcIdx args) (w.globals, world)
  | .tailCall funcIdx args =>
    match jitDispatch host funcIdx args w.world with
    | (some ret, world) => .leave ret (w.globals, world)
    | (none, world) =>
      .stay { w.frame with funcIdx, ip := 0, frame := .new, args, retVal := .null }
        (w.globals, world)
  | .return_ val => .leave val w.shared
  | .halt => .stop (.result (.ok .null)) w.frame w.shared

/-- The fault path, on a view. -/
def fault (func : FunctionDef) (ip : Nat) (f : Fault) (w : View ω) : LoopMove ω :=
  match w.frame.tryGuard with
  | some g => .stay (w.frame.rollback g f) (w.globals.restore g.globalSnap, w.world)
  | none => .stop (.result (.error (unhandled func ip f))) w.frame w.shared

/-- What becomes of the result of an instruction, on a view. -/
def settle (host : Host ω) (func : FunctionDef) (ip : Nat) :
    EStateM.Result Stop (View ω) Action → LoopMove ω
  | .ok a w => w.act host a
  | .error (.fault f) w => w.fault func ip f
  | .error (.panic x) w => .stop (.panic x) w.frame w.shared
  | .error (.exit c) w => .stop (.exit c) w.frame w.shared

/-- The view when the instruction runs: its `ip` is already the next one. -/
def advance (v : View ω) : View ω := { v with frame := { v.frame with ip := v.frame.ip + 1 } }

/-- One turn of the run loop. -/
def move (host : Host ω) (p : Program) (v : View ω) : LoopMove ω :=
  match p.functions[v.frame.funcIdx]? with
  | none => .stop (.result (.error (badIndexError v.frame.funcIdx))) v.frame v.shared
  | some func =>
    match func.instructions[v.frame.ip]? with
    | none => .leave v.frame.retVal v.shared
    | some instr => settle host func v.frame.ip (v.advance.exec host p instr)

end View

/-- The pushdown machine of the run loop. -/
def machine (host : Host ω) (p : Program) :
    Machine CallFrame (GlobalRegister × ω) Value Ending where
  move cf g := View.move host p ⟨cf, g.1, g.2⟩
  resume cf r := { cf with retVal := r }
  limit := maxCallDepth
  overflow := .result (.error Fault.stackOverflow.display)
  finish r := .result (.ok r)

/-- An executor as a configuration of the machine. -/
def Executor.config (e : Executor ω) : Config CallFrame (GlobalRegister × ω) :=
  ⟨e.callStack, (e.globals, e.world)⟩

/-- A configuration as an executor. -/
def ofConfig (c : Config CallFrame (GlobalRegister × ω)) : Executor ω :=
  ⟨c.shared.1, c.stack, c.shared.2⟩

@[simp] theorem config_ofConfig (c : Config CallFrame (GlobalRegister × ω)) :
    (ofConfig c).config = c := rfl

/-- The end of a run as an iteration. -/
def Ending.iteration (t : Ending) (e : Executor ω) : Iteration ω :=
  match t with
  | .result r => .done r e
  | .panic x => .panic x e
  | .exit c => .exit c e

/-- A turn of the machine as an iteration of the run loop. -/
def Iteration.ofTurn : Machine.Turn CallFrame (GlobalRegister × ω) Ending → Iteration ω
  | .next c => .next (ofConfig c)
  | .done t c => t.iteration (ofConfig c)

section Connection

variable (host : Host ω) (p : Program) (below : List CallFrame)

/-- A move above the frames `below`, as an iteration. -/
abbrev ofMove (m : LoopMove ω) : Iteration ω := .ofTurn ((machine host p).apply below m)

theorem popFrame_plug (ret : Value) (v : View ω) :
    popFrame ret (v.plug below) = ofMove host p below (.leave ret v.shared) := by
  cases below <;> rfl

theorem perform_plug (a : Action) (w : View ω) :
    perform host a (w.plug below) = ofMove host p below (w.act host a) := by
  cases a with
  | continue_ => rfl
  | jump target => rfl
  | callFunc funcIdx args =>
    rcases hj : jitDispatch host funcIdx args w.world with ⟨_ | ret, world⟩
    · have hj' : jitDispatch host funcIdx args (w.plug below).world = (none, world) := hj
      simp only [perform, callFunc, View.act, hj, hj', ofMove]
      by_cases hd : maxCallDepth ≤ below.length + 1
      · have hd' : maxCallDepth ≤ (w.plug below).callStack.length := hd
        rw [if_pos hd', Machine.apply_overflow (machine host p) hd]
        rfl
      · have hd' : ¬ maxCallDepth ≤ (w.plug below).callStack.length := hd
        rw [if_neg hd', Machine.apply_enter (machine host p) (Nat.lt_of_not_le hd)]
        rfl
    · have hj' : jitDispatch host funcIdx args (w.plug below).world = (some ret, world) := hj
      simp only [perform, callFunc, View.act, hj, hj']
      rfl
  | tailCall funcIdx args =>
    simp only [perform, tailCall, View.act, View.plug]
    rcases jitDispatch host funcIdx args w.world with ⟨_ | ret, world⟩
    · rfl
    · exact popFrame_plug host p below ret ⟨w.frame, w.globals, world⟩
  | return_ val => exact popFrame_plug host p below val w
  | halt => rfl

theorem deliver_plug (func : FunctionDef) (ip : Nat) (f : Fault) (w : View ω) :
    deliver func ip f (w.plug below) = ofMove host p below (w.fault func ip f) := by
  simp only [deliver, View.plug, View.fault]
  cases w.frame.tryGuard <;> rfl

theorem settle_plug (func : FunctionDef) (ip : Nat) (r : EStateM.Result Stop (View ω) Action) :
    settle host func ip (mapState (·.plug below) r) =
      ofMove host p below (View.settle host func ip r) := by
  match r with
  | .ok a w => exact perform_plug host p below a w
  | .error (.fault f) w => exact deliver_plug host p below func ip f w
  | .error (.panic x) w => rfl
  | .error (.exit c) w => rfl

/-- The run loop does what the machine does. -/
theorem iterate_plug (v : View ω) :
    iterate host p (v.plug below) = ofMove host p below (v.move host p) := by
  simp only [iterate, View.move]
  cases hf : p.functions[v.frame.funcIdx]? with
  | none => simp only [View.plug, hf]; rfl
  | some func =>
    cases hi : func.instructions[v.frame.ip]? with
    | none => simp only [View.plug, hf, hi]; exact popFrame_plug host p below _ v
    | some instr =>
      simp only [View.plug, hf, hi]
      rw [← settle_plug, ← View.exec_plug]
      rfl

/-- On a stack that is not empty, the run loop does the machine's turn. -/
theorem iterate_eq {e : Executor ω} {t} (h : (machine host p).turn e.config = some t) :
    iterate host p e = .ofTurn t := by
  obtain ⟨g, stack, w⟩ := e
  cases stack with
  | nil => cases h
  | cons cf below =>
    cases h
    exact iterate_plug host p below ⟨cf, g, w⟩

end Connection

/-! ## Steps -/

variable {host : Host ω} {p : Program} {e e' : Executor ω}

/-- `e'` is the executor after one turn of the loop on `e`. -/
def Step (host : Host ω) (p : Program) (e e' : Executor ω) : Prop := iterate host p e = .next e'

/-- One turn of the loop on `e` ends the run with `t` and leaves `e'`. -/
def Ends (host : Host ω) (p : Program) (e : Executor ω) (t : Ending) (e' : Executor ω) : Prop :=
  iterate host p e = t.iteration e'

/-- Going on is a step of the machine. -/
theorem step_iff : Step host p e e' ↔ (machine host p).Step e.config e'.config := by
  rw [Machine.step_iff]
  cases ht : (machine host p).turn e.config with
  | none =>
    obtain ⟨g, stack, w⟩ := e
    cases stack with
    | nil => exact iff_of_false nofun nofun
    | cons => cases ht
  | some t =>
    rw [Step, iterate_eq host p ht]
    cases t with
    | next c =>
      refine ⟨fun h => ?_, fun h => ?_⟩
      · cases h; rfl
      · cases h; rfl
    | done t c => exact iff_of_false (by cases t <;> nofun) nofun

/-- Ending a run is an end of the machine, or the loop is entered without a frame. -/
theorem ends_iff {t : Ending} (hne : e.callStack ≠ []) :
    Ends host p e t e' ↔ (machine host p).Ends e.config t e'.config := by
  rw [Machine.ends_iff]
  cases ht : (machine host p).turn e.config with
  | none =>
    obtain ⟨g, stack, w⟩ := e
    cases stack with
    | nil => exact absurd rfl hne
    | cons => cases ht
  | some t' =>
    rw [Ends, iterate_eq host p ht]
    cases t' with
    | next c => exact iff_of_false (by cases t <;> nofun) nofun
    | done t' c =>
      refine ⟨fun h => ?_, fun h => ?_⟩
      · cases t <;> cases t' <;> cases h <;> rfl
      · cases h; rfl

end Fasm
