import Fasm.Vm.Moves

/-!
# Well-formedness of the call stack

On an executor whose call stack is empty, a run keeps between one and
`MAX_CALL_DEPTH` frames, each at a function of the program.  So the run loop always
finds its function, and no `unwrap` of the top frame fails.
-/

namespace Fasm

open Pushdown (Move Config Machine)

variable {ω : Type} {host : Host ω} {p : Program}

/-- The run of `func` started on `e₀` reaches the head of its loop with `e`. -/
def RunReaches (host : Host ω) (p : Program) (func : String) (args : Value)
    (e₀ e : Executor ω) : Prop :=
  ∃ e₁, start p func args e₀ = .next e₁ ∧ Relation.ReflTransGen (Step host p) e₁ e

/-- A run that gets to `e`, each step of which is taken from a state with the property `C`. -/
def RunReachesBy (host : Host ω) (p : Program) (C : Executor ω → Prop) (func : String)
    (args : Value) (e₀ e : Executor ω) : Prop :=
  ∃ e₁, start p func args e₀ = .next e₁ ∧
    Relation.ReflTransGen (fun e e' => C e ∧ Step host p e e') e₁ e

/-- What holds at the start of such a run and is kept by its steps holds at its end. -/
theorem RunReachesBy.invariant {C P : Executor ω → Prop} {func : String} {args : Value}
    {e₀ e : Executor ω} (hstart : ∀ e, start p func args e₀ = .next e → P e)
    (hstep : ∀ e e', C e → P e → Step host p e e' → P e')
    (h : RunReachesBy host p C func args e₀ e) : P e := by
  obtain ⟨e₁, he₁, hsteps⟩ := h
  induction hsteps with
  | refl => exact hstart _ he₁
  | tail _ hs ih => exact hstep _ _ hs.1 ih hs.2

/-- A run of the loop is a run of the machine. -/
theorem steps_config {e e' : Executor ω} (h : Relation.ReflTransGen (Step host p) e e') :
    (machine host p).Steps e.config e'.config := by
  induction h with
  | refl => exact .refl
  | tail _ hstep ih => exact ih.tail (step_iff.mp hstep)

/-- A run of the machine is a run of the loop. -/
theorem steps_ofConfig {e : Executor ω} {c} (h : (machine host p).Steps e.config c) :
    Relation.ReflTransGen (Step host p) e (ofConfig c) := by
  induction h with
  | refl => exact .refl
  | @tail c c' _ hstep ih => exact ih.tail (step_iff.mpr hstep)

/-- The entry frame goes on top of what is there, at a function of the program. -/
theorem start_eq {func : String} {args : Value} {e₀ e₁ : Executor ω}
    (h : start p func args e₀ = .next e₁) :
    ∃ i, i < p.functions.length ∧ e₁.callStack = .new i args :: e₀.callStack ∧
      e₁.world = e₀.world := by
  unfold start at h
  cases hidx : p.getFunctionIndex func with
  | none => simp only [hidx] at h; cases h
  | some i =>
    simp only [hidx] at h
    cases h
    exact ⟨i, p.getFunctionIndex_lt hidx, rfl, rfl⟩

/-- The head of the loop is only reached with a frame on the stack. -/
theorem RunReaches.ne_nil {func : String} {args : Value} {e₀ e : Executor ω}
    (h : RunReaches host p func args e₀ e) : e.callStack ≠ [] := by
  obtain ⟨e₁, hstart, hsteps⟩ := h
  cases hsteps with
  | refl =>
    obtain ⟨i, -, hstack, -⟩ := start_eq hstart
    rw [hstack]
    exact List.cons_ne_nil _ _
  | tail _ hstep => exact (step_iff.mp hstep).stack_ne_nil

/-- The frame is at a function of the program. -/
def CallFrame.InProgram (p : Program) (cf : CallFrame) : Prop := cf.funcIdx < p.functions.length

/-- Calls and tail calls name functions of the program, and nothing else changes `func_idx`. -/
theorem keeps_inProgram : (machine host p).Keeps (CallFrame.InProgram p) where
  stay := by
    intro f g f' g' h hf
    have hidx {instr r} (hx : (View.advance ⟨f, g.1, g.2⟩).exec host p instr = r) :
        (stateOf r).frame.InProgram p := by
      rw [CallFrame.InProgram, exec_funcIdx hx]
      exact hf
    cases moves_of_eq h with
    | goOn _ hexec => exact hidx hexec
    | jump _ hexec => exact hidx hexec
    | callJit _ hexec _ => exact hidx hexec
    | tail _ hexec _ => exact exec_tail_lt hexec
    | caught _ hexec _ => exact hidx hexec
  enter := by
    intro f g f' callee g' h hf
    cases moves_of_eq h with
    | call _ hexec _ =>
      refine ⟨?_, exec_call_lt hexec⟩
      rw [exec_call_eq hexec]
      exact hf
  resume := fun _ hf => hf

/-- Depth and function indices, in every state of a run on an empty call stack. -/
theorem RunReaches.stack {func : String} {args : Value} {e₀ e : Executor ω}
    (hempty : e₀.callStack = []) (h : RunReaches host p func args e₀ e) :
    (0 < e.callStack.length ∧ e.callStack.length ≤ maxCallDepth) ∧
      ∀ cf ∈ e.callStack, cf.InProgram p := by
  obtain ⟨e₁, hstart, hsteps⟩ := h
  obtain ⟨i, hi, hstack, -⟩ := start_eq hstart
  rw [hempty] at hstack
  constructor
  · induction hsteps with
    | refl => simp [hstack, maxCallDepth]
    | tail _ hstep ih => exact (step_iff.mp hstep).depth ih.2
  · refine keeps_inProgram.steps (steps_config hsteps) fun cf hcf => ?_
    rw [Executor.config, hstack] at hcf
    rw [List.mem_singleton.mp hcf]
    exact hi

/-- A turn that panics does so inside an instruction, not for want of a frame. -/
theorem Ends.panic_ne {e e' : Executor ω} {x : Panic} (hne : e.callStack ≠ [])
    (h : Ends host p e (.panic x) e') : x ≠ .emptyCallStack := by
  replace h := (ends_iff hne).mp h
  obtain ⟨g, stack, w⟩ := e
  obtain ⟨g', stack', w'⟩ := e'
  cases h with
  | stop hm =>
    cases moves_of_eq hm with
    | panic _ hexec => exact (exec_panic hexec).2

/-- A string starts as its first part does. -/
theorem head?_toList_append {c : Char} {s : String} (t : String)
    (h : s.toList.head? = some c) : (s ++ t).toList.head? = some c := by
  rw [String.toList_append, List.head?_append, h]
  rfl

/-- The error for a function index out of range is told from the other errors of the run loop
by its first letter. -/
theorem badIndexError_ne (n : Nat) :
    (∀ func ip f, badIndexError n ≠ unhandled func ip f) ∧
      badIndexError n ≠ Fault.stackOverflow.display := by
  have hF : (badIndexError n).toList.head? = some 'F' :=
    head?_toList_append _ (head?_toList_append _ (by decide))
  constructor
  · intro func ip f h
    have hU : (unhandled func ip f).toList.head? = some 'U' :=
      head?_toList_append _ (head?_toList_append _ (head?_toList_append _
        (head?_toList_append _ (head?_toList_append _ (by decide)))))
    rw [← h, hF] at hU
    exact absurd hU (by decide)
  · intro h
    rw [h] at hF
    exact absurd hF (by decide)

/-- A turn on a frame at a function of the program does not end in that error. -/
theorem Ends.badIndex_ne {cf : CallFrame} {below : List CallFrame} {e e' : Executor ω} {n : Nat}
    (hstack : e.callStack = cf :: below) (hcf : cf.InProgram p) :
    ¬ Ends host p e (.result (.error (badIndexError n))) e' := by
  intro h
  replace h := (ends_iff (by rw [hstack]; exact List.cons_ne_nil _ _)).mp h
  obtain ⟨g, stack, w⟩ := e
  obtain ⟨g', stack', w'⟩ := e'
  obtain rfl : stack = cf :: below := hstack
  generalize ht : Ending.result (.error (badIndexError n)) = t at h
  cases h with
  | overflow => exact (badIndexError_ne n).2 (Except.error.inj (Ending.result.inj ht))
  | leave => cases ht
  | stop hm =>
    cases moves_of_eq hm with
    | badIndex hnone => exact absurd hcf (Nat.not_lt.mpr (List.getElem?_eq_none_iff.mp hnone))
    | unhandled =>
      exact (badIndexError_ne n).1 _ _ _ (Except.error.inj (Ending.result.inj ht))
    | halt => cases ht
    | panic => cases ht
    | exit => cases ht

/-- **Run-loop well-formedness.**  In every state of a run on an empty call stack there are
between 1 and `MAX_CALL_DEPTH` frames, each at a function of the program; so the loop does
not end for a function index out of range, nor panic for want of a frame. -/
theorem run_wellFormed {func : String} {args : Value} {e₀ e : Executor ω}
    (hempty : e₀.callStack = []) (h : RunReaches host p func args e₀ e) :
    (1 ≤ e.callStack.length ∧ e.callStack.length ≤ 512) ∧
    (∀ cf ∈ e.callStack, cf.funcIdx < p.functions.length) ∧
    (∀ n e', ¬ Ends host p e (.result (.error (badIndexError n))) e') ∧
    ∀ e', ¬ Ends host p e (.panic .emptyCallStack) e' := by
  obtain ⟨hdepth, hidx⟩ := h.stack hempty
  have hne : e.callStack ≠ [] := List.ne_nil_of_length_pos hdepth.1
  obtain ⟨cf, below, hstack⟩ := List.exists_cons_of_ne_nil hne
  refine ⟨hdepth, hidx, fun n e' => ?_, fun e' h => Ends.panic_ne hne h rfl⟩
  exact Ends.badIndex_ne hstack (hidx cf (hstack ▸ List.mem_cons_self))

/-- A program whose `Main` calls itself for ever. -/
def recursiveMain : Program :=
  ⟨1, [], [⟨"Main", [], [⟨.call, [.funcRef 0, .imm .null]⟩]⟩]⟩

/-- `recursiveMain` after its first call. -/
def recursiveMainCalled : Executor Unit :=
  ⟨.new, [.new 0 .null, { CallFrame.new 0 (.struct []) with ip := 1 }], ()⟩

theorem recursiveMain_reaches :
    RunReaches Host.bare recursiveMain "Main" (.struct []) (.new ()) recursiveMainCalled :=
  ⟨_, rfl, .tail .refl rfl⟩

theorem run_wellFormed_recursiveMain :
    (1 ≤ recursiveMainCalled.callStack.length ∧ recursiveMainCalled.callStack.length ≤ 512) ∧
    (∀ cf ∈ recursiveMainCalled.callStack, cf.funcIdx < recursiveMain.functions.length) ∧
    (∀ n e', ¬ Ends Host.bare recursiveMain recursiveMainCalled
      (.result (.error (badIndexError n))) e') ∧
    ∀ e', ¬ Ends Host.bare recursiveMain recursiveMainCalled (.panic .emptyCallStack) e' :=
  run_wellFormed rfl recursiveMain_reaches

end Fasm
