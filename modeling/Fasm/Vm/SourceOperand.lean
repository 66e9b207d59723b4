import Fasm.Vm.TargetOperand

/-!
# Operands that are read

An operand that an instruction neither writes, updates or releases nor takes the address
of is looked at through `read_operand` only.  So two slots that read the same can be
exchanged there: the instruction does the same with both.
-/

namespace Fasm

open ExecM

variable {ω : Type} {α β : Type}

/-- On `e` the computation does the same with either slot as its operand. -/
def Agrees (e : Executor ω) (s t : SlotRef) (m : Operand → ExecM ω α) : Prop :=
  m (.slot s) e = m (.slot t) e

/-- Two reads that find the same, and go on alike. -/
theorem reads_congr {f g : Executor ω → Except Stop α} {k k' : α → ExecM ω β} {e : Executor ω}
    (hf : f e = g e) (hk : ∀ a, k a e = k' a e) : (reads f >>= k) e = (reads g >>= k') e := by
  cases hg : g e with
  | ok a => rw [reads_bind_ok (hf.trans hg), reads_bind_ok hg, hk a]
  | error s => rw [reads_bind_error (hf.trans hg), reads_bind_error hg]

namespace Agrees

variable {e : Executor ω} {s t : SlotRef}

theorem refl (m : ExecM ω α) : Agrees e s t fun _ => m := rfl

theorem look {f : Executor ω → Except Stop α} {k : α → Operand → ExecM ω β}
    (hk : ∀ a, Agrees e s t (k a)) : Agrees e s t fun op => reads f >>= fun a => k a op :=
  reads_congr rfl hk

theorem lift {x : Except Stop α} {k : α → Operand → ExecM ω β} (hk : ∀ a, Agrees e s t (k a)) :
    Agrees e s t fun op => (liftM x : ExecM ω α) >>= fun a => k a op := look (f := fun _ => x) hk

variable {instr : Instruction} {n i : Nat}

/-- Fetching another operand. -/
theorem getOp_ne (hi : i ≠ n) {k : Operand → Operand → ExecM ω β}
    (hk : ∀ o, Agrees e s t (k o)) :
    Agrees e s t fun op =>
      (liftM ((instr.withOperand n op).getOp i) : ExecM ω Operand) >>= fun o => k o op := by
  simp only [getOp_withOperand_ne hi]
  exact lift hk

/-- An operand is the exchanged one, or it is as it was. -/
theorem getOp_withOperand_cases (instr : Instruction) (n i : Nat) :
    (∀ op, (instr.withOperand n op).getOp i = instr.getOp i) ∨
      ∀ op, (instr.withOperand n op).getOp i = .ok op := by
  by_cases hi : i = n
  · subst hi
    by_cases hlen : i < instr.operands.length
    · exact .inr fun op => getOp_withOperand_self hlen
    · refine .inl fun op => ?_
      unfold Instruction.getOp Instruction.withOperand
      rw [List.set_eq_of_length_le (Nat.le_of_not_lt hlen)]
  · exact .inl fun op => getOp_withOperand_ne hi

/-- Fetching an operand that may be the exchanged one. -/
theorem getOp {k : Operand → Operand → ExecM ω β} (hk : ∀ o, Agrees e s t (k o))
    (hself : Agrees e s t fun op => k op op) :
    Agrees e s t fun op =>
      (liftM ((instr.withOperand n op).getOp i) : ExecM ω Operand) >>= fun o => k o op := by
  rcases getOp_withOperand_cases instr n i with h | h
  · simp only [h]
    exact lift hk
  · simp only [h]
    exact hself

variable (hread : e.readSlot s = e.readSlot t)
include hread

/-- Fetching and reading an operand. -/
theorem val {k : Value → Operand → ExecM ω β} (hk : ∀ v, Agrees e s t (k v)) :
    Agrees e s t fun op =>
      (liftM ((instr.withOperand n op).getOp i) : ExecM ω Operand) >>= fun o =>
        readVal o >>= fun v => k v op :=
  getOp (fun _ => look hk) (reads_congr hread hk)

/-- The same for a key. -/
theorem key {k : U32 → Operand → ExecM ω β} (hk : ∀ v, Agrees e s t (k v)) :
    Agrees e s t fun op =>
      (liftM ((instr.withOperand n op).getOp i) : ExecM ω Operand) >>= fun o =>
        reads (fun e => e.readKeyOperand o) >>= fun v => k v op := by
  refine getOp (fun _ => look hk) (reads_congr ?_ hk)
  simp only [Executor.readKeyOperand, Executor.readOperand, hread]

/-- The same for what `STORE` stores. -/
theorem imm {k : Value → Operand → ExecM ω β} (hk : ∀ v, Agrees e s t (k v)) :
    Agrees e s t fun op =>
      (liftM ((instr.withOperand n op).getOp i) : ExecM ω Operand) >>= fun o =>
        reads (fun e => e.immOperand o) >>= fun v => k v op :=
  getOp (fun _ => look hk) (reads_congr hread hk)

/-! ### Families -/

omit hread in
/-- Fetching an operand and doing something to it that does not depend on the exchanged one. -/
theorem target (hi : i ≠ n) {k : Operand → ExecM ω β} :
    Agrees e s t fun op => (liftM ((instr.withOperand n op).getOp i) : ExecM ω Operand) >>= k :=
  getOp_ne hi fun o => refl (k o)

theorem binaryOp {f : Value → Value → Except Stop Value} (hn : 2 ≠ n) :
    Agrees e s t fun op => Fasm.binaryOp (instr.withOperand n op) f :=
  val hread fun _ => val hread fun _ => lift fun _ => target hn

theorem unaryOp {f : Value → Except Stop Value} (hn : 1 ≠ n) :
    Agrees e s t fun op => Fasm.unaryOp (instr.withOperand n op) f :=
  val hread fun _ => lift fun _ => target hn

theorem wrapOp {f : Value → Except Stop Value} (hn : 0 ≠ n) :
    Agrees e s t fun op => Fasm.wrapOp (instr.withOperand n op) f :=
  val hread fun _ => lift fun _ => target hn

theorem fieldGet {f : List (U32 × Value) → U32 → Except Stop Value} (hn : 2 ≠ n) :
    Agrees e s t fun op => Fasm.fieldGet (instr.withOperand n op) f :=
  key hread fun _ => val hread fun _ => lift fun _ => target hn

theorem keyedGet {f : Value → U32 → Except Stop Value} (hn : 2 ≠ n) :
    Agrees e s t fun op => Fasm.keyedGet (instr.withOperand n op) f :=
  val hread fun _ => lift fun _ => val hread fun _ => lift fun _ => target hn

theorem pushOp {f : Value → Value → Except Stop Value} (hn : 0 ≠ n) :
    Agrees e s t fun op => Fasm.pushOp (instr.withOperand n op) f :=
  val hread fun _ => target hn

theorem keyedMut {f : Value → U32 → Except Stop Value} (hn : 0 ≠ n) :
    Agrees e s t fun op => Fasm.keyedMut (instr.withOperand n op) f :=
  val hread fun _ => lift fun _ => target hn

theorem keyedSet {f : Value → U32 → Value → Except Stop Value} (hn : 0 ≠ n) :
    Agrees e s t fun op => Fasm.keyedSet (instr.withOperand n op) f :=
  val hread fun _ => lift fun _ => val hread fun _ => target hn

omit hread in
/-- What takes an element out looks at no other operand. -/
theorem popOp {f : Value → Except Stop (Value × Value)} (hn₀ : 0 ≠ n) (hn₁ : 1 ≠ n) :
    Agrees e s t fun op => Fasm.popOp (instr.withOperand n op) f := by
  unfold Fasm.popOp
  simp only [getOp_withOperand_ne hn₀, getOp_withOperand_ne hn₁]
  exact refl _

/-! ### Single instructions -/

omit hread in
/-- The type and the initial value of a `RESERVE` are no slots. -/
theorem execReserve (hn : 0 ≠ n) :
    Agrees e s t fun op => Fasm.execReserve (instr.withOperand n op) := by
  refine getOp_ne hn fun idxOp => getOp (fun typeOp => ?_) ?_
  · refine getOp (fun _ => refl _) ?_
    cases typeOp <;> rfl
  · exact getOp (fun _ => rfl) rfl

theorem mov (hn : 1 ≠ n) (hop : instr.opcode = .mov) (host : Host ω) (p : Program) :
    Agrees e s t fun op => executeInstruction host p (instr.withOperand n op) := by
  obtain ⟨o, operands⟩ := instr
  obtain rfl : o = .mov := hop
  exact val hread fun _ => target hn

theorem store (hn : 1 ≠ n) (hop : instr.opcode = .store) (host : Host ω) (p : Program) :
    Agrees e s t fun op => executeInstruction host p (instr.withOperand n op) := by
  obtain ⟨o, operands⟩ := instr
  obtain rfl : o = .store := hop
  exact imm hread fun _ => target hn

omit hread in
theorem execAddr (hn₀ : 0 ≠ n) (hn₁ : 1 ≠ n) :
    Agrees e s t fun op => Fasm.execAddr (instr.withOperand n op) :=
  getOp_ne hn₀ fun _ => target hn₁

theorem callOp (p : Program) (action : Nat → Value → Action) :
    Agrees e s t fun op => Fasm.callOp (instr.withOperand n op) p action := by
  refine reads_congr ?_ fun _ => rfl
  unfold callTarget
  rcases getOp_withOperand_cases instr n 0 with h₀ | h₀
  · simp only [h₀]
    rcases getOp_withOperand_cases instr n 1 with h₁ | h₁
    · simp only [h₁]
    · have hread' : e.readOperand (.slot s) = e.readOperand (.slot t) := hread
      simp only [h₁, bind, Except.bind, hread']
  · simp only [h₀]
    rfl

theorem condJump (taken : Bool) :
    Agrees e s t fun op => Fasm.condJump (instr.withOperand n op) taken :=
  val hread fun _ => getOp (fun _ => refl _) rfl

theorem execRet : Agrees e s t fun op => Fasm.execRet (instr.withOperand n op) := by
  have hlen (op : Operand) :
      (instr.withOperand n op).operands.isEmpty = instr.operands.isEmpty := by
    obtain ⟨o, operands⟩ := instr
    cases operands <;> cases n <;> rfl
  unfold Agrees Fasm.execRet
  simp only [hlen]
  split
  · rfl
  · exact @val _ _ e s t instr n 0 hread _ fun _ => refl _

theorem execSetField (hn : 0 ≠ n) :
    Agrees e s t fun op => Fasm.execSetField (instr.withOperand n op) :=
  key hread fun _ => val hread fun _ => target hn

theorem execDelField (hn : 0 ≠ n) :
    Agrees e s t fun op => Fasm.execDelField (instr.withOperand n op) :=
  key hread fun _ => target hn

theorem execCast (hn : 2 ≠ n) :
    Agrees e s t fun op => Fasm.execCast (instr.withOperand n op) := by
  refine val hread fun v => getOp (fun typeOp => ?_) rfl
  cases typeOp with
  | type t' => exact lift fun _ => target hn
  | _ => rfl

theorem execVecFilter (hn : 3 ≠ n) :
    Agrees e s t fun op => Fasm.execVecFilter (instr.withOperand n op) := by
  refine val hread fun src => val hread fun _ => lift fun _ => val hread fun _ => ?_
  cases src with
  | vec v => exact target hn
  | _ => rfl

theorem execVecSlice (hn : 3 ≠ n) :
    Agrees e s t fun op => Fasm.execVecSlice (instr.withOperand n op) := by
  refine val hread fun src => val hread fun _ => lift fun _ => val hread fun _ =>
    lift fun _ => ?_
  cases src with
  | vec v => exact target hn
  | _ => rfl

theorem execBitvecRead (hn : 3 ≠ n) :
    Agrees e s t fun op => Fasm.execBitvecRead (instr.withOperand n op) := by
  refine val hread fun _ => lift fun _ => val hread fun _ => lift fun _ => val hread fun src => ?_
  cases src with
  | bitvec bv => exact target hn
  | _ => rfl

theorem execBitvecWrite (hn : 0 ≠ n) :
    Agrees e s t fun op => Fasm.execBitvecWrite (instr.withOperand n op) :=
  val hread fun _ => lift fun _ => val hread fun _ => lift fun _ => val hread fun _ =>
    lift fun _ => target hn

theorem execBitvecPush (hn : 0 ≠ n) :
    Agrees e s t fun op => Fasm.execBitvecPush (instr.withOperand n op) :=
  val hread fun _ => lift fun _ => val hread fun _ => lift fun _ => target hn

theorem syscallOp (host : Host ω) (wrap : Value → Value) :
    Agrees e s t fun op => Fasm.syscallOp (instr.withOperand n op) host wrap :=
  getOp (fun _ => lift fun _ => val hread fun _ => refl _) rfl

omit hread in
theorem execTry : Agrees e s t fun op => Fasm.execTry (instr.withOperand n op) := by
  refine reads_congr (f := fun _ => Instruction.tryTargets _)
    (g := fun _ => Instruction.tryTargets _) ?_ fun _ => rfl
  unfold Instruction.tryTargets
  rcases getOp_withOperand_cases instr n 0 with h₀ | h₀
  · simp only [h₀]
    rcases getOp_withOperand_cases instr n 1 with h₁ | h₁
    · simp only [h₁]
    · simp only [h₁]
      rfl
  · simp only [h₀]
    rfl

end Agrees

/-- Where an instruction neither writes, updates or releases an operand nor takes its address, it
does the same with two slots that read the same. -/
theorem executeInstruction_agrees (host : Host ω) (p : Program) {instr : Instruction} {n : Nat}
    {e : Executor ω} {s t : SlotRef} (hres : ∀ i, instr.opcode.resultIndex = some i → i ≠ n)
    (hup : ∀ i, instr.opcode.updatedIndex = some i → i ≠ n)
    (haddr : instr.opcode = .addr → 0 ≠ n) (hread : e.readSlot s = e.readSlot t) :
    Agrees e s t fun op => executeInstruction host p (instr.withOperand n op) := by
  obtain ⟨o, operands⟩ := instr
  cases o with
  | nop | halt | tmpBlock | endTmp | catch_ | endTry => rfl
  | reserve => exact .execReserve (hres 0 rfl)
  | release => exact .target (hup 0 rfl)
  | mov => exact .mov hread (hres 1 rfl) rfl host p
  | store => exact .store hread (hres 1 rfl) rfl host p
  | addr => exact .execAddr (haddr rfl) (hres 1 rfl)
  | call | asyncCall | tailCall => exact .callOp hread p _
  | jmp => exact .getOp (fun _ => .refl _) rfl
  | jz | jnz => exact .condJump hread _
  | ret => exact .execRet hread
  | syscall | asyncSyscall => exact .syscallOp hread host _
  | try_ => exact .execTry
  | setField => exact .execSetField hread (hup 0 rfl)
  | delField => exact .execDelField hread (hup 0 rfl)
  | cast => exact .execCast hread (hres 2 rfl)
  | vecSort => exact .target (hup 0 rfl)
  | vecFilter => exact .execVecFilter hread (hres 3 rfl)
  | vecSlice => exact .execVecSlice hread (hres 3 rfl)
  | bitvecRead => exact .execBitvecRead hread (hres 3 rfl)
  | bitvecWrite => exact .execBitvecWrite hread (hup 0 rfl)
  | bitvecPush => exact .execBitvecPush hread (hup 0 rfl)
  | pop | dequeue | popBack => exact .popOp (hup 0 rfl) (hres 1 rfl)
  | push | enqueue | prepend | bitAnd | bitOr | bitXor => exact .pushOp hread (hup 0 rfl)
  | sparseDel | btreeDel | bitSet_ | bitClr | bitFlip | bitGrow =>
    exact .keyedMut hread (hup 0 rfl)
  | setIdx | sparseSet | btreeSet => exact .keyedSet hread (hup 0 rfl)
  | getField | hasField => exact .fieldGet hread (hres 2 rfl)
  | sparseGet | sparseHas | btreeGet | btreeHas | bitGet => exact .keyedGet hread (hres 2 rfl)
  | some_ | ok_ | err_ => exact .wrapOp hread (hres 0 rfl)
  | neg | not | await | peek | peekBack | len | isSome | unwrap | isOk | unwrapOk | unwrapErr
  | btreeMin | btreeMax | bitCount => exact .unaryOp hread (hres 1 rfl)
  | add | sub | mul | div | mod | eq | neq | lt | lte | gt | gte | and | or | xor | shl | shr
  | getIdx | vecMerge => exact .binaryOp hread (hres 2 rfl)

end Fasm
