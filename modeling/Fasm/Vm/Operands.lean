import Fasm.Vm.Moves
import Fasm.Vm.Simple

/-!
# What a successful instruction has read and written

The instructions on numbers read some operands, compute a value and write it to another
operand.  Where such an instruction succeeds, all of this has succeeded.
-/

namespace Fasm

open ExecM

variable {ω : Type}

/-! ## Inversion of sequences -/

section Bind

variable {α β : Type} {e e' : Executor ω} {b : β}

theorem bind_run_eq_ok {m : ExecM ω α} {f : α → ExecM ω β} (h : (m >>= f) e = .ok b e') :
    ∃ a e₁, m e = .ok a e₁ ∧ f a e₁ = .ok b e' := by
  cases hm : m e with
  | ok a e₁ =>
    rw [bind_run_ok hm] at h
    exact ⟨a, e₁, rfl, h⟩
  | error s e₁ =>
    rw [bind_run_error hm] at h
    cases h

theorem reads_bind_eq_ok {f : Executor ω → Except Stop α} {k : α → ExecM ω β}
    (h : (reads f >>= k) e = .ok b e') : ∃ a, f e = .ok a ∧ k a e = .ok b e' := by
  cases hf : f e with
  | ok a =>
    rw [reads_bind_ok hf] at h
    exact ⟨a, rfl, h⟩
  | error s =>
    rw [reads_bind_error hf] at h
    cases h

theorem lift_bind_eq_ok {x : Except Stop α} {k : α → ExecM ω β}
    (h : ((liftM x : ExecM ω α) >>= k) e = .ok b e') : ∃ a, x = .ok a ∧ k a e = .ok b e' :=
  reads_bind_eq_ok (f := fun _ => x) h

theorem pure_eq_ok {a a' : α} (h : (pure a : ExecM ω α) e = .ok a' e') : a = a' := by
  cases h
  rfl

theorem getOp_bind_eq_ok {instr : Instruction} {n : Nat} {k : Operand → ExecM ω β}
    (h : ((liftM (instr.getOp n) : ExecM ω Operand) >>= k) e = .ok b e') :
    ∃ op, instr.operands[n]? = some op ∧ k op e = .ok b e' := by
  obtain ⟨op, hop, h⟩ := lift_bind_eq_ok h
  exact ⟨op, getOp_eq_ok hop, h⟩

end Bind

/-! ## Operands -/

/-- The operand at `n` reads as `a`. -/
def View.Reads (v : View ω) (instr : Instruction) (n : Nat) (a : Value) : Prop :=
  ∃ op, instr.operands[n]? = some op ∧ (v.plug []).readOperand op = .ok a

/-- Writing `r` to the operand at `n` takes the view to `w`. -/
def View.Writes (v : View ω) (instr : Instruction) (n : Nat) (r : Value) (w : View ω) : Prop :=
  ∃ op, instr.operands[n]? = some op ∧ writeOperand op r (v.plug []) = .ok () (w.plug [])

namespace View

variable {host : Host ω} {p : Program} {instr : Instruction} {v w : View ω} {act : Action}

/-- An instruction on the view, run on the executor that has only its frame. -/
theorem exec_run (h : v.exec host p instr = .ok act w) :
    executeInstruction host p instr (v.plug []) = .ok act (w.plug []) := by
  rw [exec_plug, h]
  rfl

theorem plug_injective (h : v.plug [] = w.plug []) : v = w := by
  cases v
  cases w
  cases h
  rfl

/-- The end of an instruction that writes its result. -/
theorem writes_of_run {n : Nat} {r : Value} {e : Executor ω}
    (h : ((liftM (instr.getOp n) : ExecM ω Operand) >>= fun op =>
      writeVal op r >>= fun _ => pure .continue_) (v.plug []) = .ok act e) (he : e = w.plug []) :
    act = .continue_ ∧ v.Writes instr n r w := by
  obtain ⟨op, hop, h⟩ := getOp_bind_eq_ok h
  obtain ⟨_, e₁, hwrite, h⟩ := bind_run_eq_ok h
  cases h
  subst he
  exact ⟨rfl, op, hop, hwrite⟩

section Families

variable (h : v.exec host p instr = .ok act w)
include h

/-- Two operands and a result. -/
theorem exec_binaryOp {f : Value → Value → Except Stop Value}
    (hop : executeInstruction host p instr = binaryOp instr f) :
    act = .continue_ ∧ ∃ a b r, v.Reads instr 0 a ∧ v.Reads instr 1 b ∧ f a b = .ok r ∧
      v.Writes instr 2 r w := by
  have hrun := exec_run h
  rw [hop] at hrun
  obtain ⟨op₀, h₀, hrun⟩ := getOp_bind_eq_ok hrun
  obtain ⟨a, ha, hrun⟩ := reads_bind_eq_ok hrun
  obtain ⟨op₁, h₁, hrun⟩ := getOp_bind_eq_ok hrun
  obtain ⟨b, hb, hrun⟩ := reads_bind_eq_ok hrun
  obtain ⟨r, hr, hrun⟩ := lift_bind_eq_ok hrun
  obtain ⟨hact, hw⟩ := writes_of_run hrun rfl
  exact ⟨hact, a, b, r, ⟨op₀, h₀, ha⟩, ⟨op₁, h₁, hb⟩, hr, hw⟩

/-- One operand and a result. -/
theorem exec_unaryOp {f : Value → Except Stop Value}
    (hop : executeInstruction host p instr = unaryOp instr f) :
    act = .continue_ ∧ ∃ a r, v.Reads instr 0 a ∧ f a = .ok r ∧ v.Writes instr 1 r w := by
  have hrun := exec_run h
  rw [hop] at hrun
  obtain ⟨op₀, h₀, hrun⟩ := getOp_bind_eq_ok hrun
  obtain ⟨a, ha, hrun⟩ := reads_bind_eq_ok hrun
  obtain ⟨r, hr, hrun⟩ := lift_bind_eq_ok hrun
  obtain ⟨hact, hw⟩ := writes_of_run hrun rfl
  exact ⟨hact, a, r, ⟨op₀, h₀, ha⟩, hr, hw⟩

end Families

section Single

variable {operands : List Operand}

theorem exec_mov (h : v.exec host p ⟨.mov, operands⟩ = .ok act w) :
    act = .continue_ ∧ ∃ a, v.Reads ⟨.mov, operands⟩ 0 a ∧ v.Writes ⟨.mov, operands⟩ 1 a w := by
  obtain ⟨op₀, h₀, hrun⟩ := getOp_bind_eq_ok (exec_run h)
  obtain ⟨a, ha, hrun⟩ := reads_bind_eq_ok hrun
  obtain ⟨hact, hw⟩ := writes_of_run hrun rfl
  exact ⟨hact, a, ⟨op₀, h₀, ha⟩, hw⟩

/-- A `STORE` of an immediate. -/
theorem exec_store {i : Immediate} (h : v.exec host p ⟨.store, operands⟩ = .ok act w)
    (hi : operands[0]? = some (.imm i)) :
    act = .continue_ ∧ v.Writes ⟨.store, operands⟩ 1 (immToValue i) w := by
  obtain ⟨op₀, h₀, hrun⟩ := getOp_bind_eq_ok (exec_run h)
  obtain ⟨a, ha, hrun⟩ := reads_bind_eq_ok hrun
  cases hi.symm.trans h₀
  cases ha
  exact writes_of_run hrun rfl

theorem exec_cast (h : v.exec host p ⟨.cast, operands⟩ = .ok act w) :
    act = .continue_ ∧ ∃ a t r, v.Reads ⟨.cast, operands⟩ 0 a ∧ operands[1]? = some (.type t) ∧
      castValue a t = .ok r ∧ v.Writes ⟨.cast, operands⟩ 2 r w := by
  obtain ⟨op₀, h₀, hrun⟩ := getOp_bind_eq_ok (exec_run h)
  obtain ⟨a, ha, hrun⟩ := reads_bind_eq_ok hrun
  obtain ⟨op₁, h₁, hrun⟩ := getOp_bind_eq_ok hrun
  cases op₁ with
  | type t =>
    obtain ⟨r, hr, hrun⟩ := lift_bind_eq_ok hrun
    obtain ⟨hact, hw⟩ := writes_of_run hrun rfl
    exact ⟨hact, a, t, r, ⟨op₀, h₀, ha⟩, h₁, hr, hw⟩
  | _ => cases hrun

/-- A `GET_FIELD` with a key as its second operand. -/
theorem exec_getField {key : U32} (h : v.exec host p ⟨.getField, operands⟩ = .ok act w)
    (hkey : operands[1]? = some (.key key)) :
    act = .continue_ ∧ ∃ s r, v.Reads ⟨.getField, operands⟩ 0 (.struct s) ∧
      FasmStruct.get s key = some r ∧ v.Writes ⟨.getField, operands⟩ 2 r w := by
  obtain ⟨op₁, h₁, hrun⟩ := getOp_bind_eq_ok (exec_run h)
  obtain ⟨key', hkey', hrun⟩ := reads_bind_eq_ok hrun
  cases hkey.symm.trans h₁
  cases hkey'
  obtain ⟨op₀, h₀, hrun⟩ := getOp_bind_eq_ok hrun
  obtain ⟨coll, hcoll, hrun⟩ := reads_bind_eq_ok hrun
  obtain ⟨r, hr, hrun⟩ := lift_bind_eq_ok hrun
  obtain ⟨hact, hw⟩ := writes_of_run hrun rfl
  cases coll with
  | struct s => exact ⟨hact, s, r, ⟨op₀, h₀, hcoll⟩, orFault_eq_ok.mp hr, hw⟩
  | _ => cases hr

theorem exec_setField (h : v.exec host p ⟨.setField, operands⟩ = .ok act w) :
    act = .continue_ ∧ ∃ a, v.Reads ⟨.setField, operands⟩ 2 a := by
  obtain ⟨op₁, h₁, hrun⟩ := getOp_bind_eq_ok (exec_run h)
  obtain ⟨key, hkey, hrun⟩ := reads_bind_eq_ok hrun
  obtain ⟨op₂, h₂, hrun⟩ := getOp_bind_eq_ok hrun
  obtain ⟨a, ha, hrun⟩ := reads_bind_eq_ok hrun
  obtain ⟨op₀, h₀, hrun⟩ := getOp_bind_eq_ok hrun
  obtain ⟨_, e₁, -, hrun⟩ := bind_run_eq_ok hrun
  exact ⟨(pure_eq_ok hrun).symm, a, op₂, h₂, ha⟩

theorem exec_jmp (h : v.exec host p ⟨.jmp, operands⟩ = .ok act w) :
    ∃ t, operands[0]? = some (.labelTarget t) ∧ act = .jump t.toNat := by
  obtain ⟨op₀, h₀, hrun⟩ := getOp_bind_eq_ok (exec_run h)
  obtain ⟨target, ht, hrun⟩ := lift_bind_eq_ok hrun
  obtain rfl := pure_eq_ok hrun
  cases op₀ with
  | labelTarget t => cases ht; exact ⟨t, h₀, rfl⟩
  | _ => cases ht

theorem exec_condJump {taken : Bool} (h : v.exec host p instr = .ok act w)
    (hop : executeInstruction host p instr = condJump instr taken) :
    ∃ a t, v.Reads instr 0 a ∧ instr.operands[1]? = some (.labelTarget t) ∧
      act = if a.isTruthy = taken then .jump t.toNat else .continue_ := by
  have hrun := exec_run h
  rw [hop] at hrun
  obtain ⟨op₀, h₀, hrun⟩ := getOp_bind_eq_ok hrun
  obtain ⟨a, ha, hrun⟩ := reads_bind_eq_ok hrun
  obtain ⟨op₁, h₁, hrun⟩ := getOp_bind_eq_ok hrun
  obtain ⟨target, ht, hrun⟩ := lift_bind_eq_ok hrun
  cases op₁ with
  | labelTarget t =>
    cases ht
    exact ⟨a, t, ⟨op₀, h₀, ha⟩, h₁, (pure_eq_ok hrun).symm⟩
  | _ => cases ht

theorem exec_tailCall (h : v.exec host p ⟨.tailCall, operands⟩ = .ok act w) :
    ∃ idx args, operands[0]? = some (.funcRef idx) ∧ v.Reads ⟨.tailCall, operands⟩ 1 args ∧
      act = .tailCall idx.toNat args := by
  obtain ⟨⟨i, args⟩, htarget, hrun⟩ := reads_bind_eq_ok (exec_run h)
  obtain rfl := pure_eq_ok hrun
  obtain ⟨op₀, h₀, htarget⟩ := bind_eq_ok htarget
  cases op₀ with
  | funcRef idx =>
    simp only at htarget
    split at htarget
    case isTrue =>
      obtain ⟨op₁, h₁, htarget⟩ := bind_eq_ok htarget
      obtain ⟨args', hargs, htarget⟩ := bind_eq_ok htarget
      cases htarget
      exact ⟨idx, args, getOp_eq_ok h₀, ⟨op₁, getOp_eq_ok h₁, hargs⟩, rfl⟩
    case isFalse => cases htarget
  | _ => cases htarget

theorem exec_ret (h : v.exec host p ⟨.ret, operands⟩ = .ok act w) :
    (operands = [] ∧ act = .return_ .null) ∨
      ∃ a, v.Reads ⟨.ret, operands⟩ 0 a ∧ act = .return_ a := by
  have hrun : execRet ⟨.ret, operands⟩ (v.plug []) = _ := exec_run h
  unfold execRet at hrun
  split at hrun
  case isTrue hnil => exact .inl ⟨List.isEmpty_iff.mp hnil, (pure_eq_ok hrun).symm⟩
  case isFalse =>
    obtain ⟨op₀, h₀, hrun⟩ := getOp_bind_eq_ok hrun
    obtain ⟨a, ha, hrun⟩ := reads_bind_eq_ok hrun
    exact .inr ⟨a, ⟨op₀, h₀, ha⟩, (pure_eq_ok hrun).symm⟩

end Single

/-! ## Writes -/

theorem writes_local {i : U8} {r : Value}
    (h : writeOperand (.slot (.local_ i)) r (v.plug []) = .ok () (w.plug [])) :
    w = { v with frame := { v.frame with frame := v.frame.frame.set i.toNat r } } :=
  plug_injective (EStateM.Result.ok.inj h).2.symm

theorem writes_ret {r : Value}
    (h : writeOperand (.slot (.builtIn .ret)) r (v.plug []) = .ok () (w.plug [])) :
    w = { v with frame := { v.frame with retVal := r } } :=
  plug_injective (EStateM.Result.ok.inj h).2.symm

end View

end Fasm
