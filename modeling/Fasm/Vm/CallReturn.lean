import Fasm.Vm.WellFormed

/-!
# Calls balance

A callee runs above its caller: nothing it does, and nothing that what it calls does,
touches the frames below, until it leaves with a value and the caller goes on with
that value as its `$ret`.
-/

namespace Fasm

open Pushdown (Move Config Machine)

variable {ω : Type} {host : Host ω} {p : Program}

/-- Any number of turns after each of which the stack is deeper than `d`. -/
abbrev StepsAbove (host : Host ω) (p : Program) (d : Nat) : Executor ω → Executor ω → Prop :=
  Relation.ReflTransGen fun e e' => Step host p e e' ∧ d < e'.callStack.length

theorem stepsAbove_config {d : Nat} {e e' : Executor ω} (h : StepsAbove host p d e e') :
    (machine host p).StepsAbove d e.config e'.config := by
  induction h with
  | refl => exact .refl
  | tail _ hstep ih => exact ih.tail ⟨step_iff.mp hstep.1, hstep.2⟩

/-- The next turn leaves the top frame with the value `v`: by `RET`, or with `$ret` at the end
of the function. -/
def Leaves (host : Host ω) (p : Program) (e : Executor ω) (v : Value) : Prop :=
  ∃ cf below func, e.callStack = cf :: below ∧ p.functions[cf.funcIdx]? = some func ∧
    ((func.instructions[cf.ip]? = none ∧ v = cf.retVal) ∨
      ∃ instr e', func.instructions[cf.ip]? = some instr ∧
        executeInstruction host p instr
          { e with callStack := { cf with ip := cf.ip + 1 } :: below } = .ok (.return_ v) e')

/-- A move that leaves is one of these two, when no JIT answers tail calls. -/
theorem leaves_of_move {v : View ω} {below : List CallFrame} {r : Value} {g}
    (hjit : host.jit = none) (h : v.move host p = .leave r g) : Leaves host p (v.plug below) r := by
  cases moves_of_eq h with
  | fallOff hf hi => exact ⟨_, _, _, rfl, hf, .inl ⟨hi, rfl⟩⟩
  | @ret func instr w val hfetch hexec =>
    refine ⟨_, _, _, rfl, hfetch.func_eq, .inr ⟨instr, w.plug below, hfetch.instr_eq, ?_⟩⟩
    have hplug := View.exec_plug host p instr v.advance below
    rw [hexec] at hplug
    exact hplug
  | tailJit _ _ hdispatch =>
    simp only [jitDispatch, hjit] at hdispatch
    cases hdispatch

/-- A turn changes at most the top frame, and the `$ret` of the frame it returns to. -/
def BelowUnchanged (e e' : Executor ω) : Prop :=
  ∃ f rest, e.callStack = f :: rest ∧
    (rest <:+ e'.callStack ∨
      ∃ c rest' v, rest = c :: rest' ∧ e'.callStack = { c with retVal := v } :: rest')

theorem Step.belowUnchanged {e e' : Executor ω} (h : Step host p e e') : BelowUnchanged e e' := by
  replace h := step_iff.mp h
  obtain ⟨g, stack, w⟩ := e
  obtain ⟨g', stack', w'⟩ := e'
  cases h with
  | stay => exact ⟨_, _, rfl, .inl (List.suffix_cons _ _)⟩
  | enter => exact ⟨_, _, rfl, .inl ((List.suffix_cons _ _).trans (List.suffix_cons _ _))⟩
  | leave => exact ⟨_, _, rfl, .inr ⟨_, _, _, rfl, rfl⟩⟩

/-- A turn that makes the stack deeper is a call: a fresh frame above the caller, of which only
the `ip` has moved. -/
theorem Step.push {e e₁ : Executor ω} {caller : CallFrame} {below : List CallFrame}
    (hstack : e.callStack = caller :: below) (h : Step host p e e₁)
    (hpush : e₁.callStack.length = e.callStack.length + 1) :
    ∃ i args, e₁.callStack = .new i args :: { caller with ip := caller.ip + 1 } :: below := by
  replace h := step_iff.mp h
  obtain ⟨g, stack, w⟩ := e
  obtain ⟨g', stack', w'⟩ := e₁
  obtain rfl : stack = caller :: below := hstack
  cases h with
  | stay => exact absurd hpush (by simp)
  | leave => exact absurd hpush (by simp only [List.length_cons]; omega)
  | enter hm hd =>
    cases moves_of_eq hm with
    | call hfetch hexec hjit =>
      obtain rfl := exec_call_eq hexec
      exact ⟨_, _, rfl⟩

/-- **Call/return balance and caller isolation.**  When a `CALL` in the frame `caller` pushes a
callee, the caller with its `ip` moved past the call stays on the stack, unchanged, as long as
the stack is deeper; and at the first return to the caller's depth it is still that frame, with
the value the callee left with as `$ret`.  No turn at all changes a frame below the top. -/
theorem call_return {e e₁ e₂ e₃ : Executor ω} {caller : CallFrame} {below : List CallFrame}
    (hjit : host.jit = none) (hstack : e.callStack = caller :: below)
    (hcall : Step host p e e₁) (hpush : e₁.callStack.length = e.callStack.length + 1)
    (hrun : StepsAbove host p e.callStack.length e₁ e₂)
    (hret : Step host p e₂ e₃) (hback : e₃.callStack.length = e.callStack.length) :
    (∃ v, Leaves host p e₂ v ∧
      e₃.callStack = { caller with ip := caller.ip + 1, retVal := v } :: below) ∧
    (∀ e', StepsAbove host p e.callStack.length e₁ e' →
      ({ caller with ip := caller.ip + 1 } :: below) <:+ e'.callStack) ∧
    ∀ e' e'', Step host p e' e'' → BelowUnchanged e' e'' := by
  have hlen : e.callStack.length = below.length + 1 := by rw [hstack]; rfl
  obtain ⟨i, args, hstack₁⟩ := hcall.push hstack hpush
  have hsuf : ({ caller with ip := caller.ip + 1 } :: below) <:+ e₁.config.stack := by
    rw [Executor.config, hstack₁]
    exact List.suffix_cons _ _
  have hdeep : below.length + 1 < e₁.config.stack.length := by
    rw [Executor.config, hstack₁]
    simp
  rw [hlen] at hrun hback ⊢
  refine ⟨?_, fun e' he' => ?_, fun e' e'' h => h.belowUnchanged⟩
  · obtain ⟨f, v, hf, hmove, hres⟩ := Machine.StepsAbove.return (stepsAbove_config hrun) hsuf hdeep
      (step_iff.mp hret) hback
    refine ⟨v, ?_, hres⟩
    have hplug : e₂ = View.plug ⟨f, e₂.globals, e₂.world⟩
        ({ caller with ip := caller.ip + 1 } :: below) := by
      obtain ⟨g, stack, w⟩ := e₂
      obtain rfl : stack = _ := hf
      rfl
    rw [hplug]
    exact leaves_of_move hjit hmove
  · exact (Machine.StepsAbove.suffix (_ :: below) (stepsAbove_config he') hsuf hdeep).1

section Example

/-- `Main` calls `f` and returns what it returns. -/
def callerMain : Program :=
  ⟨1, [], [⟨"Main", [], [⟨.call, [.funcRef 1, .imm .null]⟩, ⟨.ret, [.slot (.builtIn .ret)]⟩]⟩,
    ⟨"f", [], [⟨.ret, [.imm (.int .int32 7)]⟩]⟩]⟩

private def mainFrame : CallFrame := .new 0 (.struct [])

/-- The executor with the frames `stack`. -/
private def withStack (stack : List CallFrame) : Executor Unit := ⟨.new, stack, ()⟩

theorem call_return_callerMain :
    let before := withStack [mainFrame]
    let called := withStack [.new 1 .null, { mainFrame with ip := 1 }]
    let returned := withStack [{ mainFrame with ip := 1, retVal := .int .int32 7 }]
    (∃ v, Leaves Host.bare callerMain called v ∧
      returned.callStack = [{ mainFrame with ip := mainFrame.ip + 1, retVal := v }]) ∧
    (∀ e', StepsAbove Host.bare callerMain before.callStack.length called e' →
      [{ mainFrame with ip := mainFrame.ip + 1 }] <:+ e'.callStack) ∧
    ∀ e' e'', Step Host.bare callerMain e' e'' → BelowUnchanged e' e'' :=
  call_return rfl rfl rfl rfl .refl rfl rfl

end Example

end Fasm
