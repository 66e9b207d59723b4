import Fasm.Vm.Dispatch

/-!
# The guard opcodes

What `TRY`, `CATCH` and `ENDTRY` do to the top frame.
-/

namespace Fasm

variable {ω : Type}

/-- The view with another guard on its frame. -/
def View.withGuard (v : View ω) (g : Option TryGuard) : View ω :=
  { v with frame := { v.frame with tryGuard := g } }

/-- The guard that a `TRY` sets: the targets it names and what the slots hold then. -/
def View.guard (v : View ω) (catchIp endIp : Nat) : TryGuard :=
  ⟨catchIp, endIp, v.frame.frame.snapshot, v.globals.snapshot⟩

theorem raises_tryTargets (instr : Instruction) : Raises NoPanic instr.tryTargets :=
  (raises_getOp _ _).bind fun _ => (raises_labelTarget _).bind fun _ =>
    (raises_getOp _ _).bind fun _ => (raises_labelTarget _).bind fun _ => .pure _

/-- `TRY` sets the guard and goes on, or faults and changes nothing. -/
theorem execTry_plug (instr : Instruction) (v : View ω) (below : List CallFrame) :
    execTry instr (v.plug below) =
      match instr.tryTargets with
      | .ok (c, t) => .ok .continue_ ((v.withGuard (some (v.guard c t))).plug below)
      | .error s => .error s (v.plug below) := by
  cases h : instr.tryTargets with
  | error s => simp only [execTry, h]; rfl
  | ok ct => simp only [execTry, h]; rfl

/-- Where a `CATCH` that is reached by normal execution goes. -/
def View.catchTarget (v : View ω) : Nat :=
  match v.frame.tryGuard with
  | some g => g.endIp
  | none => v.frame.ip

end Fasm
