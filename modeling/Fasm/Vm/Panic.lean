import Fasm.Bytecode.Encode
import Fasm.Vm.ValuePanics
import Fasm.Vm.WellFormed

/-!
# Panics of the interpreter

An instruction panics exactly at the operands `Hazard` lists: a division that
overflows, a bit index at `u32::MAX`, a bit range past `u64::MAX`.  Everywhere else a
turn of the run loop yields an action or a fault.
-/

namespace Fasm

open Pushdown (Move Config Machine)

variable {ω : Type}

/-! ## Panics of computations -/

/-- The computation panics on the state. -/
def Panics {σ α : Type} (m : EStateM Stop σ α) (s : σ) : Prop :=
  ∃ x s', m s = .error (.panic x) s'

section Rules

variable {α β : Type} {e : Executor ω}

theorem panics_bind {m : ExecM ω α} {f : α → ExecM ω β} :
    Panics (m >>= f) e ↔ Panics m e ∨ ∃ a e', m e = .ok a e' ∧ Panics (f a) e' := by
  unfold Panics
  have hbind : (m >>= f) e = EStateM.bind m f e := rfl
  rw [hbind, EStateM.bind]
  cases m e with
  | ok a e' =>
    refine ⟨fun h => .inr ⟨a, e', rfl, h⟩, ?_⟩
    rintro (⟨x, s', h⟩ | ⟨a', e'', heq, h⟩)
    · cases h
    · cases heq; exact h
  | error s e' =>
    refine ⟨fun ⟨x, s', h⟩ => .inl ⟨x, s', by cases h; rfl⟩, ?_⟩
    rintro (⟨x, s', h⟩ | ⟨a', e'', heq, -⟩)
    · exact ⟨x, s', by cases h; rfl⟩
    · cases heq

theorem panics_lift_bind {x : Except Stop α} {f : α → ExecM ω β} (hx : Raises NoPanic x) :
    Panics (liftM x >>= f : ExecM ω β) e ↔ ∃ a, x = .ok a ∧ Panics (f a) e := by
  rw [panics_bind]
  cases x with
  | ok a =>
    refine ⟨fun h => ?_, fun ⟨a', h, hf⟩ => .inr ⟨a', e, by cases h; rfl, hf⟩⟩
    rcases h with ⟨x, s', h⟩ | ⟨a', e', h, hf⟩
    · cases h
    · cases h; exact ⟨a, rfl, hf⟩
  | error s =>
    refine iff_of_false ?_ nofun
    rintro (⟨x, s', h⟩ | ⟨a', e', h, -⟩)
    · cases h
      exact Raises.error.mp hx x rfl
    · cases h

theorem panics_reads_bind {f : Executor ω → Except Stop α} {k : α → ExecM ω β}
    (hf : Raises NoPanic (f e)) :
    Panics (ExecM.reads f >>= k) e ↔ ∃ a, f e = .ok a ∧ Panics (k a) e :=
  panics_lift_bind (ω := ω) (x := f e) hf

/-- A focused computation that raises no panic does not panic. -/
theorem not_panics_of_focused {τ : Type} {keep : View ω → τ} {m : ExecM ω α}
    (h : Focused View.plug keep NoPanic m) (v : View ω) (below : List CallFrame) :
    ¬ Panics m (v.plug below) := by
  rintro ⟨x, s', hrun⟩
  obtain ⟨r, -, hr, hplug⟩ := h v
  rw [hplug below] at hrun
  cases r with
  | ok a w => cases hrun
  | error s w => cases hrun; exact hr x rfl

/-- A computation that stops panics if it stops with a panic. -/
theorem panics_of_stops {m : ExecM ω α} {s : Stop} {e' : Executor ω} (h : m e = .error s e') :
    Panics m e ↔ ∃ x, (.error s : Except Stop β) = .error (.panic x) := by
  constructor
  · rintro ⟨x, _, hx⟩
    cases h.symm.trans hx
    exact ⟨x, rfl⟩
  · rintro ⟨x, ⟨⟩⟩
    exact ⟨x, e', h⟩

end Rules

/-- The part of `write_target_mut` that finds the value. -/
def Executor.target (e : Executor ω) : Operand → Except Stop Value
  | .slot (.local_ idx) => e.readSlot (.local_ idx)
  | .slot (.tmp idx) => e.readSlot (.tmp idx)
  | .slot (.global idx) => e.readSlot (.global idx)
  | _ => .error (.fault .typeMismatch)

section Targets

variable {α β : Type} {x : Panic}

/-- A panic after a part that does not panic. -/
theorem bind_eq_panic {y : Except Stop α} {k : α → Except Stop β} (hy : Raises NoPanic y) :
    (y >>= k) = .error (.panic x) ↔ ∃ a, y = .ok a ∧ k a = .error (.panic x) := by
  cases y with
  | ok a => exact ⟨fun h => ⟨a, rfl, h⟩, fun ⟨a', h, hk⟩ => by cases h; exact hk⟩
  | error s =>
    refine iff_of_false (fun h => ?_) nofun
    cases h
    exact Raises.error.mp hy x rfl

/-- A panic before a part that does not panic. -/
theorem bind_eq_panic_left {y : Except Stop α} {k : α → Except Stop β}
    (hk : ∀ a, Raises NoPanic (k a)) :
    (y >>= k) = .error (.panic x) ↔ y = .error (.panic x) := by
  cases y with
  | error s => exact ⟨fun h => by cases h; rfl, fun h => by cases h; rfl⟩
  | ok a => exact iff_of_false (fun h => hk a _ h x rfl) nofun

theorem panics_onLast {f : CallFrame → Except Stop (α × CallFrame)} (v : View ω)
    (below : List CallFrame) :
    Panics (ExecM.onLast f : ExecM ω α) (v.plug below) ↔ ∃ x, f v.frame = .error (.panic x) := by
  cases hf : f v.frame with
  | ok r =>
    refine iff_of_false ?_ (by rintro ⟨_, ⟨⟩⟩)
    simp only [Panics, ExecM.onLast, View.plug, hf]
    rintro ⟨_, _, ⟨⟩⟩
  | error s =>
    have hrun : (ExecM.onLast f : ExecM ω α) (v.plug below) = .error s (v.plug below) := by
      simp only [ExecM.onLast, View.plug, hf]
    exact panics_of_stops hrun

theorem panics_onGlobals {f : GlobalRegister → Except Stop (α × GlobalRegister)} (v : View ω)
    (below : List CallFrame) :
    Panics (ExecM.onGlobals f : ExecM ω α) (v.plug below) ↔
      ∃ x, f v.globals = .error (.panic x) := by
  cases hf : f v.globals with
  | ok r =>
    refine iff_of_false ?_ (by rintro ⟨_, ⟨⟩⟩)
    simp only [Panics, ExecM.onGlobals, View.plug, hf]
    rintro ⟨_, _, ⟨⟩⟩
  | error s =>
    have hrun : (ExecM.onGlobals f : ExecM ω α) (v.plug below) = .error s (v.plug below) := by
      simp only [ExecM.onGlobals, View.plug, hf]
    exact panics_of_stops hrun

/-- An update of a target panics when the update of the value does. -/
theorem panics_writeTargetMut {op : Operand} {f : Value → Except Stop (α × Value)}
    (v : View ω) (below : List CallFrame) :
    Panics (ExecM.writeTargetMut op f : ExecM ω α) (v.plug below) ↔
      ∃ val, (v.plug below).target op = .ok val ∧ ∃ x, f val = .error (.panic x) := by
  have hmismatch : ¬ Panics (throw (.fault .typeMismatch) : ExecM ω α) (v.plug below) := nofun
  cases op with
  | slot s =>
    cases s with
    | local_ idx =>
      refine (panics_onLast v below).trans ?_
      simp only [bind_eq_panic (raises_orFault _ _), bind_eq_panic_left fun _ => Raises.pure _]
      exact ⟨fun ⟨x, val, hval, hf⟩ => ⟨val, hval, x, hf⟩,
        fun ⟨val, hval, x, hf⟩ => ⟨x, val, hval, hf⟩⟩
    | tmp idx =>
      refine (panics_onLast v below).trans ?_
      simp only [bind_eq_panic (raises_orFault _ _), bind_eq_panic (raises_tmpSlot _ _),
        bind_eq_panic_left fun _ => (raises_setTmpSlot _ _ _).bind fun _ => Raises.pure _]
      constructor
      · rintro ⟨x, o, ho, val, hval, hf⟩
        refine ⟨val, ?_, x, hf⟩
        show (v.frame.tmpSlot idx >>= fun o => orFault o _) = _
        rw [ho]
        exact hval
      · rintro ⟨val, hval, x, hf⟩
        obtain ⟨cf, hcf, hval⟩ := bind_eq_ok hval
        cases hcf
        obtain ⟨o, ho, hval⟩ := bind_eq_ok hval
        exact ⟨x, o, ho, val, hval, hf⟩
    | global idx =>
      unfold ExecM.writeTargetMut
      rw [panics_onGlobals]
      simp only [bind_eq_panic (raises_orFault _ _), bind_eq_panic_left fun _ => Raises.pure _]
      exact ⟨fun ⟨x, val, hval, hf⟩ => ⟨val, hval, x, hf⟩,
        fun ⟨val, hval, x, hf⟩ => ⟨x, val, hval, hf⟩⟩
    | _ => exact iff_of_false hmismatch nofun
  | _ => exact iff_of_false hmismatch nofun

end Targets

/-! ## Hazards -/

namespace Instruction

variable (instr : Instruction) (e : Executor ω)

/-- Operand `n`, read. -/
def valueOp (n : Nat) : Except Stop Value := do e.readOperand (← instr.getOp n)

/-- Operand `n`, read as a `u32`. -/
def u32Op (n : Nat) : Except Stop U32 := do asU32 (← instr.valueOp e n)

/-- Operand `n`, read as a `u64`. -/
def u64Op (n : Nat) : Except Stop U64 := do asU64 (← instr.valueOp e n)

/-- The value that operand `n` names as a target. -/
def targetOp (n : Nat) : Except Stop Value := do e.target (← instr.getOp n)

/-- The instruction has operands on which it panics. -/
def Hazardous : Prop :=
  match instr.opcode with
  | .div | .mod =>
    ∃ a b, instr.valueOp e 0 = .ok a ∧ instr.valueOp e 1 = .ok b ∧ DivOverflow a b
  | .bitSet_ | .bitFlip =>
    ∃ idx b, instr.u32Op e 1 = .ok idx ∧ instr.targetOp e 0 = .ok (.bitset b) ∧
      BitOverflow b idx
  | .bitvecWrite =>
    ∃ start len value bv, instr.u64Op e 1 = .ok start ∧ instr.u32Op e 2 = .ok len ∧
      instr.u64Op e 3 = .ok value ∧ instr.targetOp e 0 = .ok (.bitvec bv) ∧
      RangeOverflow bv start len
  | .bitvecPush =>
    ∃ value len bv, instr.u64Op e 1 = .ok value ∧ instr.u32Op e 2 = .ok len ∧
      instr.targetOp e 0 = .ok (.bitvec bv) ∧ RangeOverflow bv bv.bitLen len
  | _ => False

end Instruction

section Instructions

variable {β : Type} {instr : Instruction} (v : View ω) (below : List CallFrame)

/-- A sequence of `Except` computations that succeeds. -/
theorem bind_eq_ok_iff {ε α β : Type} {x : Except ε α} {f : α → Except ε β} {b : β} :
    (x >>= f) = .ok b ↔ ∃ a, x = .ok a ∧ f a = .ok b :=
  ⟨bind_eq_ok, fun ⟨a, hx, hf⟩ => by rw [hx]; exact hf⟩

theorem panics_readVal {op : Operand} {f : Value → ExecM ω β} :
    Panics (readVal op >>= f) (v.plug below) ↔
      ∃ a, (v.plug below).readOperand op = .ok a ∧ Panics (f a) (v.plug below) := by
  have h := readable_readOperand (ω := ω) op
  exact panics_reads_bind (h.local_ v below ▸ h.raises v)

theorem panics_value {n : Nat} {f : Value → ExecM ω β} :
    Panics (do let op ← (liftM (instr.getOp n) : ExecM ω Operand); let a ← readVal op; f a)
        (v.plug below) ↔
      ∃ a, instr.valueOp (v.plug below) n = .ok a ∧ Panics (f a) (v.plug below) := by
  simp only [panics_lift_bind (raises_getOp _ _), panics_readVal, Instruction.valueOp,
    bind_eq_ok_iff]
  exact ⟨fun ⟨op, hop, a, ha, hf⟩ => ⟨a, ⟨op, hop, ha⟩, hf⟩,
    fun ⟨a, ⟨op, hop, ha⟩, hf⟩ => ⟨op, hop, a, ha, hf⟩⟩

theorem panics_u32 {n : Nat} {f : U32 → ExecM ω β} :
    Panics (do
        let op ← (liftM (instr.getOp n) : ExecM ω Operand)
        let a ← readVal op
        let k ← (liftM (asU32 a) : ExecM ω U32)
        f k) (v.plug below) ↔
      ∃ k, instr.u32Op (v.plug below) n = .ok k ∧ Panics (f k) (v.plug below) := by
  simp only [panics_value, panics_lift_bind (raises_asU32 _), Instruction.u32Op, bind_eq_ok_iff]
  exact ⟨fun ⟨a, ha, k, hk, hf⟩ => ⟨k, ⟨a, ha, hk⟩, hf⟩,
    fun ⟨k, ⟨a, ha, hk⟩, hf⟩ => ⟨a, ha, k, hk, hf⟩⟩

theorem panics_u64 {n : Nat} {f : U64 → ExecM ω β} :
    Panics (do
        let op ← (liftM (instr.getOp n) : ExecM ω Operand)
        let a ← readVal op
        let k ← (liftM (asU64 a) : ExecM ω U64)
        f k) (v.plug below) ↔
      ∃ k, instr.u64Op (v.plug below) n = .ok k ∧ Panics (f k) (v.plug below) := by
  simp only [panics_value, panics_lift_bind (raises_asU64 _), Instruction.u64Op, bind_eq_ok_iff]
  exact ⟨fun ⟨a, ha, k, hk, hf⟩ => ⟨k, ⟨a, ha, hk⟩, hf⟩,
    fun ⟨k, ⟨a, ha, hk⟩, hf⟩ => ⟨a, ha, k, hk, hf⟩⟩

/-- An update of the target that operand 0 names. -/
theorem panics_update {f : Value → Except Stop Value} :
    Panics (do
        let op ← (liftM (instr.getOp 0) : ExecM ω Operand)
        ExecM.writeTargetMut op fun coll => do return ((), ← f coll)
        return .continue_ : ExecM ω Action) (v.plug below) ↔
      ∃ val, instr.targetOp (v.plug below) 0 = .ok val ∧ ∃ x, f val = .error (.panic x) := by
  have hpure : ∀ e : Executor ω, ¬ Panics (pure .continue_ : ExecM ω Action) e := fun _ => nofun
  have hret (y : Except Stop Value) (x : Panic) :
      (do return ((), ← y) : Except Stop (Unit × Value)) = .error (.panic x) ↔
        y = .error (.panic x) := bind_eq_panic_left fun _ => Raises.pure _
  simp only [panics_lift_bind (raises_getOp _ _), panics_bind (m := ExecM.writeTargetMut _ _),
    panics_writeTargetMut, hpure, and_false, exists_false, or_false, hret,
    Instruction.targetOp, bind_eq_ok_iff]
  exact ⟨fun ⟨op, hop, val, hval, hf⟩ => ⟨val, ⟨op, hop, hval⟩, hf⟩,
    fun ⟨val, ⟨op, hop, hval⟩, hf⟩ => ⟨op, hop, val, hval, hf⟩⟩

theorem panics_binaryOp {f : Value → Value → Except Stop Value} :
    Panics (binaryOp instr f : ExecM ω Action) (v.plug below) ↔
      ∃ a b, instr.valueOp (v.plug below) 0 = .ok a ∧ instr.valueOp (v.plug below) 1 = .ok b ∧
        ∃ x, f a b = .error (.panic x) := by
  have hwrite (r : Value) : ¬ Panics (do
      let op ← (liftM (instr.getOp 2) : ExecM ω Operand)
      writeVal op r
      return .continue_ : ExecM ω Action) (v.plug below) := by
    have hput : Simple NoPanic (fun _ => True) (instr.operands[2]? = some ·) (fun _ => False)
        ((liftM (instr.getOp 2) : ExecM ω Operand) >>= fun op =>
          writeVal op r >>= fun _ => pure .continue_) :=
      .put (fun _ h => h) trivial (fun _ => id) r
    exact not_panics_of_focused (hput.focused unwritten_guarded (fun _ _ _ _ _ => rfl)
      fun _ h => h) v below
  have hlift (y : Except Stop Value) (k : Value → ExecM ω Action)
      (hk : ∀ r, ¬ Panics (k r) (v.plug below)) :
      Panics (liftM y >>= k : ExecM ω Action) (v.plug below) ↔ ∃ x, y = .error (.panic x) := by
    cases y with
    | ok r => exact iff_of_false (hk r) nofun
    | error s => exact panics_of_stops rfl
  simp only [binaryOp, panics_value, hlift _ _ hwrite]
  exact ⟨fun ⟨a, ha, b, hb, hf⟩ => ⟨a, b, ha, hb, hf⟩, fun ⟨a, b, ha, hb, hf⟩ => ⟨a, ha, b, hb, hf⟩⟩

/-! ### The opcodes that can panic -/

theorem panics_division {f : U64 → U64 → Except Panic U64} (hf : PanicsAsDiv f)
    (g : U64 → U64 → U64) :
    Panics (binaryOp instr (divChecked (numericOp f g)) : ExecM ω Action) (v.plug below) ↔
      ∃ a b, instr.valueOp (v.plug below) 0 = .ok a ∧ instr.valueOp (v.plug below) 1 = .ok b ∧
        DivOverflow a b := by
  rw [panics_binaryOp]
  simp only [divChecked_panics hf]

/-- A value operation on a `BITSET` panics when its target is one and the operation panics. -/
theorem onBitset_panics {coll : Value} {f : FasmBitset → Except Panic FasmBitset} :
    (∃ x, onBitset coll f = .error (.panic x)) ↔
      ∃ b, coll = .bitset b ∧ ∃ x, f b = .error x := by
  cases coll with
  | bitset b =>
    simp only [onBitset, Value.bitset.injEq, exists_eq_left']
    cases f b with
    | ok b' => exact iff_of_false (by rintro ⟨_, ⟨⟩⟩) (by rintro ⟨_, ⟨⟩⟩)
    | error x => exact iff_of_true ⟨x, rfl⟩ ⟨x, rfl⟩
  | _ => exact iff_of_false (by rintro ⟨_, ⟨⟩⟩) (by rintro ⟨_, ⟨⟩, _⟩)

theorem onBitvec_panics {coll : Value} {f : FasmBitvec → Except Panic FasmBitvec} :
    (∃ x, onBitvec coll f = .error (.panic x)) ↔
      ∃ b, coll = .bitvec b ∧ ∃ x, f b = .error x := by
  cases coll with
  | bitvec b =>
    simp only [onBitvec, Value.bitvec.injEq, exists_eq_left']
    cases f b with
    | ok b' => exact iff_of_false (by rintro ⟨_, ⟨⟩⟩) (by rintro ⟨_, ⟨⟩⟩)
    | error x => exact iff_of_true ⟨x, rfl⟩ ⟨x, rfl⟩
  | _ => exact iff_of_false (by rintro ⟨_, ⟨⟩⟩) (by rintro ⟨_, ⟨⟩, _⟩)

theorem panics_bitIndex (g : U32 → U8 → U8) :
    Panics (keyedMut instr fun coll idx => onBitset coll fun b => b.updateGrown idx (g idx) :
        ExecM ω Action) (v.plug below) ↔
      ∃ idx b, instr.u32Op (v.plug below) 1 = .ok idx ∧
        instr.targetOp (v.plug below) 0 = .ok (.bitset b) ∧ BitOverflow b idx := by
  simp only [keyedMut, panics_u32, panics_update, onBitset_panics, updateGrown_error]
  exact ⟨fun ⟨idx, hidx, _, hval, b, hb, h⟩ => ⟨idx, b, hidx, hb ▸ hval, h⟩,
    fun ⟨idx, b, hidx, hval, h⟩ => ⟨idx, hidx, _, hval, b, rfl, h⟩⟩

theorem panics_bitvecWrite :
    Panics (execBitvecWrite instr : ExecM ω Action) (v.plug below) ↔
      ∃ start len value bv, instr.u64Op (v.plug below) 1 = .ok start ∧
        instr.u32Op (v.plug below) 2 = .ok len ∧ instr.u64Op (v.plug below) 3 = .ok value ∧
        instr.targetOp (v.plug below) 0 = .ok (.bitvec bv) ∧ RangeOverflow bv start len := by
  simp only [execBitvecWrite, panics_u32, panics_u64, panics_update, onBitvec_panics,
    writeBits_error]
  exact ⟨fun ⟨s, hs, l, hl, x, hx, _, hval, bv, hbv, h⟩ => ⟨s, l, x, bv, hs, hl, hx, hbv ▸ hval, h⟩,
    fun ⟨s, l, x, bv, hs, hl, hx, hval, h⟩ => ⟨s, hs, l, hl, x, hx, _, hval, bv, rfl, h⟩⟩

theorem panics_bitvecPush :
    Panics (execBitvecPush instr : ExecM ω Action) (v.plug below) ↔
      ∃ value len bv, instr.u64Op (v.plug below) 1 = .ok value ∧
        instr.u32Op (v.plug below) 2 = .ok len ∧
        instr.targetOp (v.plug below) 0 = .ok (.bitvec bv) ∧
        RangeOverflow bv bv.bitLen len := by
  simp only [execBitvecPush, panics_u32, panics_u64, panics_update, onBitvec_panics,
    FasmBitvec.pushBits, writeBits_error]
  exact ⟨fun ⟨x, hx, l, hl, _, hval, bv, hbv, h⟩ => ⟨x, l, bv, hx, hl, hbv ▸ hval, h⟩,
    fun ⟨x, l, bv, hx, hl, hval, h⟩ => ⟨x, hx, l, hl, _, hval, bv, rfl, h⟩⟩

/-- An instruction panics exactly on its hazards. -/
theorem panics_iff_hazardous (host : Host ω) (p : Program) (instr : Instruction) :
    Panics (executeInstruction host p instr) (v.plug below) ↔
      instr.Hazardous (v.plug below) := by
  by_cases hop : instr.opcode.mayPanic = true
  · obtain ⟨op, operands⟩ := instr
    cases op with
    | div => exact panics_division v below panicsAsDiv_div _
    | mod => exact panics_division v below panicsAsDiv_rem _
    | bitSet_ => exact panics_bitIndex v below fun idx byte => byte ||| bit8 (idx.toNat % 8)
    | bitFlip => exact panics_bitIndex v below fun idx byte => byte ^^^ bit8 (idx.toNat % 8)
    | bitvecWrite => exact panics_bitvecWrite v below
    | bitvecPush => exact panics_bitvecPush v below
    | _ => cases hop
  · refine iff_of_false ?_ ?_
    · refine not_panics_of_focused ((executeInstruction_focused host p instr).mono ?_) v below
      rintro s (h | ⟨h, -⟩)
      · exact h
      · exact absurd h hop
    · obtain ⟨op, operands⟩ := instr
      cases op <;> first | exact id | exact absurd rfl hop

end Instructions

/-! ## Runs -/

/-- The next instruction of the run has operands on which it panics. -/
def Hazard (p : Program) (e : Executor ω) : Prop :=
  ∃ cf below func instr, e.callStack = cf :: below ∧ Fetch p cf func instr ∧
    instr.Hazardous { e with callStack := { cf with ip := cf.ip + 1 } :: below }

variable {host : Host ω} {p : Program}

variable (host) in
/-- A turn panics exactly on the hazards of its instruction. -/
theorem panic_iff_hazard {e : Executor ω} (hne : e.callStack ≠ []) :
    (∃ x e', Ends host p e (.panic x) e') ↔ Hazard p e := by
  obtain ⟨g, stack, w⟩ := e
  obtain ⟨cf, below, rfl⟩ := List.exists_cons_of_ne_nil hne
  have hexec (instr : Instruction) (x : Panic) :
      (∃ s, executeInstruction host p instr ((View.advance ⟨cf, g, w⟩).plug below) =
        .error (.panic x) s) ↔
      ∃ u, (View.advance ⟨cf, g, w⟩).exec host p instr = .error (.panic x) u := by
    rw [View.exec_plug]
    cases (View.advance ⟨cf, g, w⟩).exec host p instr with
    | ok a u => exact iff_of_false nofun nofun
    | error s u =>
      exact ⟨fun ⟨_, h⟩ => ⟨u, by cases h; rfl⟩, fun ⟨_, h⟩ => ⟨_, by cases h; rfl⟩⟩
  constructor
  · rintro ⟨x, e', h⟩
    replace h := (ends_iff hne).mp h
    obtain ⟨g', stack', w'⟩ := e'
    cases h with
    | stop hm =>
      cases moves_of_eq hm with
      | panic hfetch hx =>
        obtain ⟨s, hs⟩ := (hexec _ x).mpr ⟨_, hx⟩
        exact ⟨cf, below, _, _, rfl, hfetch, (panics_iff_hazardous _ below host p _).mp ⟨x, s, hs⟩⟩
  · rintro ⟨cf', below', func, instr, hstack, hfetch, hhaz⟩
    cases hstack
    obtain ⟨x, s, hs⟩ := (panics_iff_hazardous (View.advance ⟨cf, g, w⟩) below host p instr).mpr hhaz
    obtain ⟨u, hu⟩ := (hexec instr x).mp ⟨s, hs⟩
    have hm := View.move_of_fetch host (v := ⟨cf, g, w⟩) hfetch
    rw [hu] at hm
    exact ⟨x, ofConfig ⟨u.frame :: below, u.shared⟩, (ends_iff hne).mpr (.stop hm)⟩

/-- **No instruction panics, except on its hazards.**  In every state of a run, the next turn
yields an action or a fault if and only if its instruction is not about to divide
`i64::MIN` by `-1` as `i64`s, set or flip bit `u32::MAX` of a `BITSET` without its byte, or
write bits past `u64::MAX` of a `BITVEC`. -/
theorem noPanic_iff {func : String} {args : Value} {e₀ e : Executor ω}
    (h : RunReaches host p func args e₀ e) :
    (∀ x e', ¬ Ends host p e (.panic x) e') ↔ ¬ Hazard p e := by
  rw [← panic_iff_hazard host h.ne_nil]
  simp only [not_exists]

section Example

/-- `Main` divides `i64::MIN` by `-1`. -/
def divMain : Program :=
  ⟨1, [], [⟨"Main", [], [⟨.div, [.imm (.int .int64 0x8000000000000000),
    .imm (.int .int64 0xFFFFFFFFFFFFFFFF), .slot (.local_ 0)]⟩]⟩]⟩

/-- The executor of a run of `divMain` at its division. -/
def divMainStart : Executor Unit := ⟨.new, [.new 0 (.struct [])], ()⟩

theorem divMain_reaches :
    RunReaches Host.bare divMain "Main" (.struct []) (.new ()) divMainStart := ⟨_, rfl, .refl⟩

theorem noPanic_iff_divMain :
    (∀ x e', ¬ Ends Host.bare divMain divMainStart (.panic x) e') ↔ ¬ Hazard divMain divMainStart :=
  noPanic_iff divMain_reaches

/-- The decoder returns `divMain`, and its run panics at the division. -/
theorem divMain_panics :
    decodeProgram (encodeProgram divMain) = .ok divMain ∧
    RunReaches Host.bare divMain "Main" (.struct []) (.new ()) divMainStart ∧
    ∃ e', Ends Host.bare divMain divMainStart (.panic .divOverflow) e' :=
  ⟨rfl, divMain_reaches, _, rfl⟩

end Example

end Fasm
