import Fasm.Vm.Guard

/-!
# Faults that no guard is asked about

The fault path asks the guard of the top frame only, and a call at the depth limit ends
the run without asking any.  So a fault under a guard is caught unless the guard is in a
frame below the one that faults, or the fault is an overflow of the call stack.
-/

namespace Fasm

open Pushdown (Machine)

variable {ω : Type} {host : Host ω} {p : Program} {e : Executor ω}

/-- The next instruction calls a function for which the interpreter has no frame left. -/
def Overflows (host : Host ω) (p : Program) (e : Executor ω) : Prop :=
  ∃ cf below func instr i args e' w, e.callStack = cf :: below ∧ Fetch p cf func instr ∧
    executeInstruction host p instr (e.advance cf below) = .ok (.callFunc i args) e' ∧
    jitDispatch host i args e'.world = (none, w) ∧ maxCallDepth ≤ e.callStack.length

/-- Executing the next instruction raises the fault `f`. -/
def Faults (host : Host ω) (p : Program) (e : Executor ω) (f : Fault) : Prop :=
  InstrFaults host p e f ∨ (f = .stackOverflow ∧ Overflows host p e)

/-- The innermost guarded frame, its guard, and the frames below it. -/
def innermostGuard : List CallFrame → Option (CallFrame × TryGuard × List CallFrame)
  | [] => none
  | cf :: below =>
    match cf.tryGuard with
    | some g => some (cf, g, below)
    | none => innermostGuard below

theorem innermostGuard_guarded {cf : CallFrame} {below : List CallFrame} {g : TryGuard}
    (h : cf.tryGuard = some g) : innermostGuard (cf :: below) = some (cf, g, below) := by
  simp only [innermostGuard, h]

/-- A fault goes to the `CATCH` of the innermost guard, and a run ends with an error only where
no frame has a guard. -/
structure FaultsCaught (host : Host ω) (p : Program) (e : Executor ω) : Prop where
  caught : ∀ f cf g below, Faults host p e f → innermostGuard e.callStack = some (cf, g, below) →
    ∃ e' cf', Step host p e e' ∧ e'.callStack = cf' :: below ∧
      cf'.funcIdx = cf.funcIdx ∧ cf'.ip = g.catchIp
  error : ∀ msg e', Ends host p e (.result (.error msg)) e' → innermostGuard e.callStack = none

/-- Some frame has a guard, and the next turn passes it by: the top frame is at a function index
out of range, or calls at the depth limit, or faults without a guard of its own. -/
def PassesGuardBy (host : Host ω) (p : Program) (e : Executor ω) : Prop :=
  innermostGuard e.callStack ≠ none ∧
    ((∃ cf below, e.callStack = cf :: below ∧ p.functions[cf.funcIdx]? = none) ∨
      Overflows host p e ∨
      ∃ cf below f, e.callStack = cf :: below ∧ cf.tryGuard = none ∧ InstrFaults host p e f)

/-! ## What the run loop does with a fault -/

/-- A call at the depth limit ends the run. -/
theorem Overflows.ends (h : Overflows host p e) :
    ∃ e', Ends host p e (.result (.error Fault.stackOverflow.display)) e' := by
  obtain ⟨cf, below, func, instr, i, args, e', w, hstack, hfetch, hexec, hjit, hdepth⟩ := h
  obtain ⟨globals, stack, world⟩ := e
  obtain rfl : stack = cf :: below := hstack
  let v : View ω := ⟨cf, globals, world⟩
  have hplug : executeInstruction host p instr (v.advance.plug below) = .ok (.callFunc i args) e' :=
    hexec
  have hrun := (View.exec_plug host p instr v.advance below).symm.trans hplug
  cases hr : v.advance.exec host p instr with
  | error s w => rw [hr] at hrun; cases hrun
  | ok a w₁ =>
    rw [hr] at hrun
    cases hrun
    refine ⟨⟨w₁.globals, w₁.frame :: below, w⟩, (ends_iff (List.cons_ne_nil _ _)).mpr ?_⟩
    have hmove : v.move host p = .enter w₁.frame (.new i args) (w₁.globals, w) := by
      have hjit' : jitDispatch host i args w₁.world = (none, w) := hjit
      rw [View.move_of_fetch host hfetch, hr]
      simp only [View.settle, View.act, hjit']
    exact .overflow hmove hdepth

/-- A run ends with an error only in one of three ways. -/
theorem Ends.error_cases {msg : String} {e' : Executor ω} (hne : e.callStack ≠ [])
    (h : Ends host p e (.result (.error msg)) e') :
    (∃ cf below, e.callStack = cf :: below ∧ p.functions[cf.funcIdx]? = none) ∨
      Overflows host p e ∨
      ∃ cf below f, e.callStack = cf :: below ∧ cf.tryGuard = none ∧ InstrFaults host p e f := by
  replace h := (ends_iff hne).mp h
  obtain ⟨globals, stack, world⟩ := e
  obtain ⟨globals', stack', world'⟩ := e'
  generalize ht : Ending.result (.error msg) = t at h
  cases h with
  | @overflow f s f' callee s' below hm hd =>
    refine .inr (.inl ?_)
    cases moves_of_eq hm with
    | @call func instr w i args _ hfetch hexec hjit =>
      refine ⟨f, below, func, instr, i, args, w.plug below, _, rfl, hfetch, ?_, hjit, hd⟩
      exact (View.exec_plug host p instr (View.advance ⟨f, globals, _⟩) below).trans
        (by rw [hexec]; rfl)
  | leave => cases ht
  | @stop f s t f' s' below hm =>
    cases moves_of_eq hm with
    | badIndex hnone => exact .inl ⟨f, below, rfl, hnone⟩
    | @unhandled func instr w fault hfetch hexec hguard =>
      refine .inr (.inr ⟨f, below, fault, rfl, (exec_stop_guard hexec).symm.trans hguard, f, below,
        func, instr, w.plug below, rfl, hfetch, ?_⟩)
      exact (View.exec_plug host p instr (View.advance ⟨f, globals, _⟩) below).trans
        (by rw [hexec]; rfl)
    | halt => cases ht
    | panic => cases ht
    | exit => cases ht

/-- The first of the three ways does end the run with an error. -/
theorem ends_badIndex {cf : CallFrame} {below : List CallFrame} (hstack : e.callStack = cf :: below)
    (hnone : p.functions[cf.funcIdx]? = none) :
    Ends host p e (.result (.error (badIndexError cf.funcIdx))) e := by
  rw [Ends, iterate, hstack]
  simp only [hnone]
  rfl

/-- So does the third. -/
theorem InstrFaults.ends {f : Fault} {cf : CallFrame} {below : List CallFrame}
    (h : InstrFaults host p e f) (hstack : e.callStack = cf :: below)
    (hguard : cf.tryGuard = none) :
    ∃ msg e', Ends host p e (.result (.error msg)) e' := by
  obtain ⟨cf₁, below₁, func, cf', globals, world, hstack₁, htry, -, hiter⟩ := h.delivered
  cases hstack.symm.trans hstack₁
  refine ⟨unhandled func cf.ip f, ⟨globals, cf' :: below, world⟩, ?_⟩
  rw [Ends, hiter]
  simp only [deliver, htry, hguard]
  rfl

/-- **Faults under a guard.**  In every state of a run, a fault goes to the `CATCH` of the
innermost guard and an error ends the run only where no frame has one, if and only if the next
turn does not pass a guard by. -/
theorem faultsCaught_iff {func : String} {args : Value} {e₀ : Executor ω}
    (h : RunReaches host p func args e₀ e) :
    FaultsCaught host p e ↔ ¬ PassesGuardBy host p e := by
  constructor
  · rintro hcaught ⟨hguard, ⟨cf, below, hstack, hnone⟩ | hover | ⟨cf, below, f, hstack, htry, hf⟩⟩
    · exact hguard (hcaught.error _ _ (ends_badIndex hstack hnone))
    · obtain ⟨e', hends⟩ := hover.ends
      exact hguard (hcaught.error _ _ hends)
    · obtain ⟨msg, e', hends⟩ := hf.ends hstack htry
      exact hguard (hcaught.error _ _ hends)
  · intro hpass
    constructor
    · rintro f cf g below (hf | ⟨-, hover⟩) hinner
      · obtain ⟨top, rest, hstack⟩ := List.exists_cons_of_ne_nil h.ne_nil
        cases htry : top.tryGuard with
        | none =>
          refine absurd ⟨?_, .inr (.inr ⟨top, rest, f, hstack, htry, hf⟩)⟩ hpass
          rw [hinner]
          exact Option.some_ne_none _
        | some g' =>
          rw [hstack, innermostGuard_guarded htry] at hinner
          cases hinner
          obtain ⟨cf₁, cf', below₁, w, hstack₁, -, -, hidx, hnext⟩ :=
            Executor.Delivers.next ⟨hf, _, _, hstack, rfl, htry⟩
          cases hstack.symm.trans hstack₁
          exact ⟨_, _, hnext, rfl, hidx, rfl⟩
      · refine absurd ⟨?_, .inr (.inl hover)⟩ hpass
        rw [hinner]
        exact Option.some_ne_none _
    · intro msg e' hends
      exact Classical.byContradiction fun hguard =>
        hpass ⟨hguard, Ends.error_cases h.ne_nil hends⟩

section Example

/-- `Main` calls `f` in a `TRY`, and `f` divides by zero. -/
def calleeFaultsMain : Program :=
  ⟨1, [], [
    ⟨"Main", [], [⟨.try_, [.labelTarget 2, .labelTarget 3]⟩, ⟨.call, [.funcRef 1, .imm .null]⟩,
      ⟨.catch_, []⟩, ⟨.endTry, []⟩]⟩,
    ⟨"f", [], [⟨.div, [.imm (.int .int32 1), .imm (.int .int32 0), .slot (.local_ 0)]⟩]⟩]⟩

/-- `calleeFaultsMain` at the division. -/
def calleeFaultsCalled : Executor Unit :=
  ⟨.new, [.new 1 .null,
    { CallFrame.new 0 (.struct []) with ip := 2, tryGuard := some ⟨2, 3, [], []⟩ }], ()⟩

theorem calleeFaultsMain_reaches :
    RunReaches Host.bare calleeFaultsMain "Main" (.struct []) (.new ()) calleeFaultsCalled :=
  ⟨_, rfl, .tail (.tail .refl rfl) rfl⟩

theorem faultsCaught_iff_calleeFaultsMain :
    FaultsCaught Host.bare calleeFaultsMain calleeFaultsCalled ↔
      ¬ PassesGuardBy Host.bare calleeFaultsMain calleeFaultsCalled :=
  faultsCaught_iff calleeFaultsMain_reaches

/-- The run reaches the division with a guard in the frame of `Main`, and ends with the error of
an unhandled fault instead of going on at the `CATCH`. -/
theorem calleeFaultsMain_not_caught :
    RunReaches Host.bare calleeFaultsMain "Main" (.struct []) (.new ()) calleeFaultsCalled ∧
      InstrFaults Host.bare calleeFaultsMain calleeFaultsCalled .divisionByZero ∧
      innermostGuard calleeFaultsCalled.callStack ≠ none ∧
      (∃ e', Ends Host.bare calleeFaultsMain calleeFaultsCalled
        (.result (.error "Unhandled fault in 'f' at ip 0: DivisionByZeroFault (0x04)")) e') ∧
      ¬ FaultsCaught Host.bare calleeFaultsMain calleeFaultsCalled := by
  have hends : Ends Host.bare calleeFaultsMain calleeFaultsCalled
      (.result (.error "Unhandled fault in 'f' at ip 0: DivisionByZeroFault (0x04)")) _ := rfl
  have hguard : innermostGuard calleeFaultsCalled.callStack ≠ none := Option.some_ne_none _
  refine ⟨calleeFaultsMain_reaches, ⟨_, _, _, _, _, rfl, ⟨rfl, rfl⟩, rfl⟩, hguard, ⟨_, hends⟩, ?_⟩
  intro hcaught
  exact hguard (hcaught.error _ _ hends)

end Example

end Fasm
