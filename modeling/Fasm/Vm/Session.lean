import Fasm.Vm.Guard

/-!
# Rollback over the life of an executor

An executor runs many programs one after another, on hosts that may change between runs,
and what a run that failed has left on the call stack stays there unless its owner resets
it.  A `Session` is such a life.  Over all of it, a fault that is delivered to a guard
brings back what the locals and the globals held when the `TRY` of that guard executed.
-/

namespace Fasm

open Pushdown (frameAt)

variable {ω : Type}

/-- An executor between runs, or at the head of the loop of a run. -/
inductive Session (ω : Type) where
  | idle (e : Executor ω)
  | running (host : Host ω) (p : Program) (e : Executor ω)

namespace Session

/-- The executor. -/
def executor : Session ω → Executor ω
  | idle e => e
  | running _ _ e => e

/-- A new executor. -/
def Init (s : Session ω) : Prop := ∃ w, s = .idle (.new w)

/-- What can happen to an executor. -/
inductive Step : Session ω → Session ω → Prop
  | start {host p func args e e'} (h : Fasm.start p func args e = .next e') :
    Step (.idle e) (.running host p e')
  | noFunction {p func args e r e'} (h : Fasm.start p func args e = .done r e') :
    Step (.idle e) (.idle e')
  | turn {host p e e'} (h : Fasm.Step host p e e') : Step (.running host p e) (.running host p e')
  /-- a run that ends, also by a panic that the owner catches -/
  | finish {host p e t e'} (h : Ends host p e t e') (ht : ∀ c, t ≠ .exit c) :
    Step (.running host p e) (.idle e')
  /-- `reset_call_stack` -/
  | resetCallStack {e} : Step (.idle e) (.idle { e with callStack := [] })
  /-- the owner writes to the globals, which are public, and the world goes on -/
  | outside {e} (globals : GlobalRegister) (world : ω) :
    Step (.idle e) (.idle { e with globals, world })

/-- The frame at height `d` has the guard `g`. -/
def GuardAt (s : Session ω) (d : Nat) (g : TryGuard) : Prop := s.executor.GuardAt d g

/-- The next turn executes, in the frame at height `d`, a `TRY` that sets the guard `g`. -/
def TriesAt (d : Nat) (g : TryGuard) : Session ω → Prop
  | idle _ => False
  | running _ p e => e.TriesAt p d g

/-- The next turn delivers the fault `f` to the guard `g` of the frame at height `d`. -/
def Delivers (d : Nat) (f : Fault) (g : TryGuard) : Session ω → Prop
  | idle _ => False
  | running host p e => e.Delivers host p d f g

/-! ## Where guards come from -/

/-- A new frame on top has no guard. -/
theorem guardAt_of_new {g₁ : GlobalRegister} {i : Nat} {args : Value} {stack : List CallFrame}
    {w : ω} {d : Nat} {g : TryGuard} (h : Executor.GuardAt ⟨g₁, .new i args :: stack, w⟩ d g)
    (e : Executor ω) (hstack : e.callStack = stack) : e.GuardAt d g := by
  subst hstack
  exact h.tail nofun

/-- A guard that is there after a step was there before, or the step has set it. -/
theorem Step.guard_origin {s s' : Session ω} (h : Step s s') {d : Nat} {g : TryGuard}
    (hg : s'.GuardAt d g) : s.TriesAt d g ∨ s.GuardAt d g := by
  cases h with
  | @start host p func args e e' h =>
    obtain ⟨i, -, hstack, -⟩ := start_eq h
    obtain ⟨g₁, stack', w⟩ := e'
    obtain rfl : stack' = _ := hstack
    exact .inr (guardAt_of_new hg e rfl)
  | @noFunction p func args e r e' h =>
    unfold Fasm.start at h
    cases hidx : p.getFunctionIndex func with
    | none => simp only [hidx] at h; cases h; exact .inr hg
    | some i => simp only [hidx] at h; cases h
  | turn h => exact h.guard_origin hg
  | @finish host p e t e' h =>
    by_cases hne : e.callStack = []
    · have hpanic : iterate host p e = .panic .emptyCallStack e := by simp only [iterate, hne]
      rw [Ends, hpanic] at h
      cases t <;> cases h
      exact .inr hg
    · exact Ends.guard_origin hne h hg
  | resetCallStack =>
    obtain ⟨_, hat, -⟩ := hg
    exact absurd (Pushdown.frameAt_lt hat) (Nat.not_lt_zero _)
  | outside => exact .inr hg

/-- In every state of a session, a guard was set by a `TRY` of its frame, and has been there
since then. -/
theorem guard_since {σ : Nat → Session ω} {n : Nat} (hrun : IsRun Init Step σ n) {d : Nat}
    {g : TryGuard} (hg : (σ n).GuardAt d g) :
    Since (TriesAt d g) (fun s => s.GuardAt d g ∧ ¬ s.TriesAt d g) σ n := by
  refine hrun.since (fun s hs hg => ?_) (fun s s' h => h.guard_origin) hg
  obtain ⟨w, rfl⟩ := hs
  obtain ⟨_, hat, -⟩ := hg
  exact absurd (Pushdown.frameAt_lt hat) (Nat.not_lt_zero _)

/-! ## What a delivered fault does -/

/-- A fault that is delivered finds the guard in place, and the session goes on with the guard's
snapshots. -/
theorem Delivers.step {s s' : Session ω} {d : Nat} {f : Fault} {g : TryGuard}
    (h : s.Delivers d f g) (hstep : Step s s') :
    s.GuardAt d g ∧ s'.executor.globals = ⟨g.globalSnap⟩ ∧
      ∃ cf, frameAt s'.executor.callStack d = some cf ∧ cf.frame = ⟨g.frameSnap⟩ ∧
        cf.retVal = .uint32 f.code := by
  cases s with
  | idle => exact h.elim
  | running host p e =>
  obtain ⟨cf, cf', below, w, hstack, rfl, hg, -, hnext⟩ := Executor.Delivers.next h
  have hat : frameAt e.callStack below.length = some cf := by
    rw [hstack, Pushdown.frameAt_length]
  refine ⟨⟨cf, hat, hg⟩, ?_⟩
  cases hstep with
  | turn h =>
    cases hnext.symm.trans h
    exact ⟨rfl, _, Pushdown.frameAt_length _ _, rfl, rfl⟩
  | @finish _ _ _ t _ h _ =>
    rw [Ends, hnext] at h
    cases t <;> cases h

end Session

/-- **`TRY` rollback is exact.**  Whenever in the life of an executor a fault `f` is delivered to
a guard, there is the step at which a `TRY` of the same frame set that guard, the guard has been
in place since, and afterwards every local slot of the frame and every global slot reads as it did
at that `TRY`, and `$ret` is the code of the fault. -/
theorem try_rollback {σ : Nat → Session ω} {n : Nat}
    (hrun : IsRun Session.Init Session.Step σ (n + 1)) {d : Nat} {f : Fault} {g : TryGuard}
    (hfault : (σ n).Delivers d f g) :
    ∃ i < n, (σ i).TriesAt d g ∧
      (∀ j, i < j → j < n → (σ j).GuardAt d g ∧ ¬ (σ j).TriesAt d g) ∧
      ∃ cf cf', frameAt (σ i).executor.callStack d = some cf ∧
        frameAt (σ (n + 1)).executor.callStack d = some cf' ∧
        (∀ idx, cf'.frame.get idx = cf.frame.get idx) ∧
        (∀ idx, (σ (n + 1)).executor.globals.get idx = (σ i).executor.globals.get idx) ∧
        cf'.retVal = .uint32 f.code := by
  obtain ⟨hg, hglobals, cf', hat', hframe, hret⟩ :=
    hfault.step (hrun.step n (Nat.lt_succ_self n))
  obtain ⟨i, hi, htry, hsince⟩ := Session.guard_since (hrun.le (Nat.le_succ n)) hg
  refine ⟨i, hi, htry, hsince, ?_⟩
  cases hs : σ i with
  | idle e => rw [hs] at htry; exact htry.elim
  | running host p e =>
    rw [hs] at htry
    obtain ⟨cf, below, hstack, rfl, func, instr, c, t, hfetch, hop, ht, rfl⟩ := htry
    have hat : frameAt e.callStack below.length = some cf := by
      rw [show e.callStack = cf :: below from hstack, Pushdown.frameAt_length]
    refine ⟨cf, cf', hat, hat', fun idx => ?_, fun idx => ?_, hret⟩
    · rw [hframe]
      rfl
    · rw [hglobals]
      rfl

section Example

/-- `Main` writes to a local and to a global in a `TRY` and then divides by zero. -/
def rollbackMain : Program :=
  ⟨1, [], [⟨"Main", [], [
    ⟨.mov, [.imm (.int .int32 7), .slot (.local_ 0)]⟩,
    ⟨.try_, [.labelTarget 5, .labelTarget 6]⟩,
    ⟨.mov, [.imm (.int .int32 9), .slot (.local_ 0)]⟩,
    ⟨.mov, [.imm (.int .int32 9), .slot (.global 0)]⟩,
    ⟨.div, [.imm (.int .int32 1), .imm (.int .int32 0), .slot (.local_ 1)]⟩,
    ⟨.catch_, []⟩,
    ⟨.endTry, []⟩]⟩]⟩

/-- The guard of that `TRY`. -/
private def rollbackGuard : TryGuard := ⟨5, 6, [some (.int .int32 7)], []⟩

/-- A run of `rollbackMain` on a new executor. -/
private def rollbackRun : Nat → Session Unit
  | 0 => .idle (.new ())
  | n + 1 =>
    match runNamed Host.bare rollbackMain "Main" (.struct []) n (.new ()) with
    | .next e => .running Host.bare rollbackMain e
    | _ => .idle (.new ())

private theorem rollbackRun_isRun : IsRun Session.Init Session.Step rollbackRun 6 where
  init := ⟨(), rfl⟩
  step := by
    intro i hi
    match i, hi with
    | 0, _ => exact .start (rfl : start rollbackMain "Main" (.struct []) (.new ()) = _)
    | 1, _ | 2, _ | 3, _ | 4, _ | 5, _ => exact .turn rfl

theorem try_rollback_rollbackMain :
    ∃ i < 5, (rollbackRun i).TriesAt 0 rollbackGuard ∧
      (∀ j, i < j → j < 5 →
        (rollbackRun j).GuardAt 0 rollbackGuard ∧ ¬ (rollbackRun j).TriesAt 0 rollbackGuard) ∧
      ∃ cf cf', frameAt (rollbackRun i).executor.callStack 0 = some cf ∧
        frameAt (rollbackRun 6).executor.callStack 0 = some cf' ∧
        (∀ idx, cf'.frame.get idx = cf.frame.get idx) ∧
        (∀ idx, (rollbackRun 6).executor.globals.get idx =
          (rollbackRun i).executor.globals.get idx) ∧
        cf'.retVal = .uint32 Fault.divisionByZero.code :=
  try_rollback rollbackRun_isRun
    ⟨⟨_, _, _, _, _, rfl, ⟨rfl, rfl⟩, rfl⟩, _, _, rfl, rfl, rfl⟩

end Example

end Fasm
