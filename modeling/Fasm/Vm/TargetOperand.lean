import Fasm.Vm.ResultTypes

/-!
# The target operand

An instruction first works out what to do, without looking at its target operand, and does
it to that operand last: it writes a value to it, updates it in place or releases it.  So
how a dereference fares as a target is decided by the one access at the end.  `POP`,
`DEQUEUE` and `POP_BACK` take their element out before they get to the operand that
receives it.
-/

namespace Fasm

open ExecM

variable {ω : Type} {α β : Type}

/-- The instruction with another operand at `n`. -/
def Instruction.withOperand (instr : Instruction) (n : Nat) (op : Operand) : Instruction :=
  { instr with operands := instr.operands.set n op }

section WithOperand

variable {instr : Instruction} {n k : Nat} {op : Operand}

theorem getOp_withOperand_ne (h : k ≠ n) :
    (instr.withOperand n op).getOp k = instr.getOp k := by
  unfold Instruction.getOp Instruction.withOperand
  rw [List.getElem?_set_ne (Ne.symm h)]

theorem getOp_withOperand_self (h : n < instr.operands.length) :
    (instr.withOperand n op).getOp n = .ok op := by
  unfold Instruction.getOp Instruction.withOperand
  rw [List.getElem?_set_self h]
  rfl

theorem withOperand_self (h : instr.operands[n]? = some op) : instr.withOperand n op = instr := by
  obtain ⟨hlt, rfl⟩ := List.getElem?_eq_some_iff.mp h
  unfold Instruction.withOperand
  rw [List.set_getElem_self]

end WithOperand

/-- Two reads in a row are one. -/
theorem reads_bind_reads {γ : Type} {f : Executor ω → Except Stop α}
    {g : α → Executor ω → Except Stop β} {k : β → ExecM ω γ} :
    (reads f >>= fun a => reads (g a) >>= k) = reads (fun e => f e >>= fun a => g a e) >>= k := by
  funext e
  cases hf : f e with
  | ok a =>
    have hfg : (f e >>= fun a => g a e) = g a e := by rw [hf]; rfl
    rw [reads_bind_ok hf]
    cases hg : g a e with
    | ok b => rw [reads_bind_ok hg, reads_bind_ok (hfg.trans hg)]
    | error s => rw [reads_bind_error hg, reads_bind_error (hfg.trans hg)]
  | error s =>
    have hfg : (f e >>= fun a => g a e) = .error s := by rw [hf]; rfl
    rw [reads_bind_error hf, reads_bind_error hfg]

/-- Whatever operand it is given, the computation works out the same and does it to the operand
last, by `act`; what it works out has the property `P`. -/
def ActsLast (act : Operand → β → ExecM ω Unit) (P : β → Prop) (m : Operand → ExecM ω Action) :
    Prop :=
  ∃ c : Executor ω → Except Stop β, (∀ e x, c e = .ok x → P x) ∧ ∀ op,
    m op = (reads c >>= fun x => act op x >>= fun _ => pure .continue_)

namespace ActsLast

variable {act : Operand → β → ExecM ω Unit} {P : β → Prop} {m : Operand → ExecM ω Action}

theorem done {x : β} (hx : P x) : ActsLast act P fun op => act op x >>= fun _ => pure .continue_ :=
  ⟨fun _ => .ok x, fun _ _ h => Except.ok.inj h ▸ hx, fun _ => rfl⟩

theorem stop (s : Stop) : ActsLast act P fun _ => throw s :=
  ⟨fun _ => .error s, nofun, fun _ => rfl⟩

theorem look {f : Executor ω → Except Stop α} {k : α → Operand → ExecM ω Action}
    (hk : ∀ a, ActsLast act P (k a)) : ActsLast act P fun op => reads f >>= fun a => k a op := by
  obtain ⟨c, hc⟩ := Classical.skolem.mp hk
  refine ⟨fun e => f e >>= fun a => c a e, fun e x h => ?_, fun op => ?_⟩
  · obtain ⟨a, -, h⟩ := bind_eq_ok h
    exact (hc a).1 e x h
  · simp only [(hc _).2]
    exact reads_bind_reads

theorem lift {x : Except Stop α} {k : α → Operand → ExecM ω Action}
    (hk : ∀ a, ActsLast act P (k a)) :
    ActsLast act P fun op => (liftM x : ExecM ω α) >>= fun a => k a op :=
  look (f := fun _ => x) hk

variable {instr : Instruction} {n : Nat}

/-- Fetching another operand. -/
theorem getOp {i : Nat} (hi : i ≠ n) {k : Operand → Operand → ExecM ω Action}
    (hk : ∀ o, ActsLast act P (k o)) :
    ActsLast act P fun op =>
      (liftM ((instr.withOperand n op).getOp i) : ExecM ω Operand) >>= fun o => k o op := by
  simp only [getOp_withOperand_ne hi]
  exact lift hk

theorem val {o : Operand} {k : Value → Operand → ExecM ω Action}
    (hk : ∀ v, ActsLast act P (k v)) :
    ActsLast act P fun op => readVal o >>= fun v => k v op := look hk

/-- Fetching the target operand and acting on it. -/
theorem last (hn : n < instr.operands.length) {x : β} (hx : P x) :
    ActsLast act P fun op => (liftM ((instr.withOperand n op).getOp n) : ExecM ω Operand) >>=
      fun o => act o x >>= fun _ => pure .continue_ := by
  simp only [getOp_withOperand_self hn]
  exact done hx

/-- The computation stops before it gets to the operand, or it comes to act on it. -/
theorem stops_or_acts (h : ActsLast act P m) (e : Executor ω) :
    (∃ s, ∀ op, m op e = .error s e) ∨
      ∃ x, P x ∧ ∀ op, m op e = (act op x >>= fun _ => pure .continue_) e := by
  obtain ⟨c, hP, hc⟩ := h
  cases hx : c e with
  | error s => exact .inl ⟨s, fun op => by rw [hc, reads_bind_error hx]⟩
  | ok x => exact .inr ⟨x, hP e x hx, fun op => by rw [hc, reads_bind_ok hx]⟩

end ActsLast

/-! ## Instructions that write a result -/

/-- The operand is written. -/
abbrev writeAct : Operand → Value → ExecM ω Unit := fun op v => writeVal op v

/-- The computation writes the operand last. -/
abbrev WritesLast (m : Operand → ExecM ω Action) : Prop := ActsLast writeAct (fun _ => True) m

namespace ActsLast

variable {instr : Instruction}

theorem binaryOp {f : Value → Value → Except Stop Value} (hn : 2 < instr.operands.length) :
    WritesLast (ω := ω) fun op => Fasm.binaryOp (instr.withOperand 2 op) f :=
  getOp (by decide) fun _ => val fun _ => getOp (by decide) fun _ => val fun _ =>
    lift fun _ => last hn trivial

theorem unaryOp {f : Value → Except Stop Value} (hn : 1 < instr.operands.length) :
    WritesLast (ω := ω) fun op => Fasm.unaryOp (instr.withOperand 1 op) f :=
  getOp (by decide) fun _ => val fun _ => lift fun _ => last hn trivial

theorem wrapOp {f : Value → Except Stop Value} (hn : 0 < instr.operands.length) :
    WritesLast (ω := ω) fun op => Fasm.wrapOp (instr.withOperand 0 op) f :=
  getOp (by decide) fun _ => val fun _ => lift fun _ => last hn trivial

theorem fieldGet {f : List (U32 × Value) → U32 → Except Stop Value}
    (hn : 2 < instr.operands.length) :
    WritesLast (ω := ω) fun op => Fasm.fieldGet (instr.withOperand 2 op) f :=
  getOp (by decide) fun _ => look fun _ => getOp (by decide) fun _ => val fun _ =>
    lift fun _ => last hn trivial

theorem keyedGet {f : Value → U32 → Except Stop Value} (hn : 2 < instr.operands.length) :
    WritesLast (ω := ω) fun op => Fasm.keyedGet (instr.withOperand 2 op) f :=
  getOp (by decide) fun _ => val fun _ => lift fun _ => getOp (by decide) fun _ => val fun _ =>
    lift fun _ => last hn trivial

theorem mov (hn : 1 < instr.operands.length) (hop : instr.opcode = .mov) (host : Host ω)
    (p : Program) :
    WritesLast fun op => executeInstruction host p (instr.withOperand 1 op) := by
  obtain ⟨o, operands⟩ := instr
  obtain rfl : o = .mov := hop
  exact getOp (by decide) fun _ => val fun _ => last hn trivial

theorem store (hn : 1 < instr.operands.length) (hop : instr.opcode = .store) (host : Host ω)
    (p : Program) :
    WritesLast fun op => executeInstruction host p (instr.withOperand 1 op) := by
  obtain ⟨o, operands⟩ := instr
  obtain rfl : o = .store := hop
  exact getOp (by decide) fun _ => look fun _ => last hn trivial

/-- `RESERVE` fetches its target first. -/
theorem execReserve (hn : 0 < instr.operands.length) :
    WritesLast (ω := ω) fun op => Fasm.execReserve (instr.withOperand 0 op) := by
  unfold Fasm.execReserve
  simp only [getOp_withOperand_self hn, getOp_withOperand_ne (n := 0) (k := 1) (by decide),
    getOp_withOperand_ne (n := 0) (k := 2) (by decide)]
  refine lift fun typeOp => lift fun initOp => ?_
  cases typeOp with
  | type t => exact done trivial
  | _ => exact stop _

theorem execAddr (hn : 1 < instr.operands.length) :
    WritesLast (ω := ω) fun op => Fasm.execAddr (instr.withOperand 1 op) :=
  getOp (by decide) fun _ => last hn trivial

theorem execCast (hn : 2 < instr.operands.length) :
    WritesLast (ω := ω) fun op => Fasm.execCast (instr.withOperand 2 op) := by
  refine getOp (by decide) fun _ => val fun v => getOp (by decide) fun typeOp => ?_
  cases typeOp with
  | type t => exact lift fun _ => last hn trivial
  | _ => exact stop _

theorem execVecFilter (hn : 3 < instr.operands.length) :
    WritesLast (ω := ω) fun op => Fasm.execVecFilter (instr.withOperand 3 op) := by
  refine getOp (by decide) fun _ => val fun src => getOp (by decide) fun _ => val fun _ =>
    lift fun _ => getOp (by decide) fun _ => val fun _ => ?_
  cases src with
  | vec v => exact last hn trivial
  | _ => exact stop _

theorem execVecSlice (hn : 3 < instr.operands.length) :
    WritesLast (ω := ω) fun op => Fasm.execVecSlice (instr.withOperand 3 op) := by
  refine getOp (by decide) fun _ => val fun src => getOp (by decide) fun _ => val fun _ =>
    lift fun _ => getOp (by decide) fun _ => val fun _ => lift fun _ => ?_
  cases src with
  | vec v => exact last hn trivial
  | _ => exact stop _

theorem execBitvecRead (hn : 3 < instr.operands.length) :
    WritesLast (ω := ω) fun op => Fasm.execBitvecRead (instr.withOperand 3 op) := by
  refine getOp (by decide) fun _ => val fun _ => lift fun _ => getOp (by decide) fun _ =>
    val fun _ => lift fun _ => getOp (by decide) fun _ => val fun src => ?_
  cases src with
  | bitvec bv => exact last hn trivial
  | _ => exact stop _

end ActsLast

/-- An instruction that writes a result, other than one that takes an element out, writes it
last. -/
theorem executeInstruction_writesLast (host : Host ω) (p : Program) {instr : Instruction}
    {n : Nat} (hn : instr.opcode.resultIndex = some n) (htake : instr.opcode.takesOut = false)
    (hlen : n < instr.operands.length) :
    WritesLast fun op => executeInstruction host p (instr.withOperand n op) := by
  obtain ⟨o, operands⟩ := instr
  cases o with
  | mov => cases hn; exact .mov hlen rfl host p
  | store => cases hn; exact .store hlen rfl host p
  | reserve => cases hn; exact .execReserve hlen
  | addr => cases hn; exact .execAddr hlen
  | cast => cases hn; exact .execCast hlen
  | vecFilter => cases hn; exact .execVecFilter hlen
  | vecSlice => cases hn; exact .execVecSlice hlen
  | bitvecRead => cases hn; exact .execBitvecRead hlen
  | some_ | ok_ | err_ => cases hn; exact .wrapOp hlen
  | getField | hasField => cases hn; exact .fieldGet hlen
  | sparseGet | sparseHas | btreeGet | btreeHas | bitGet => cases hn; exact .keyedGet hlen
  | neg | not | await | peek | peekBack | len | isSome | unwrap | isOk | unwrapOk | unwrapErr
  | btreeMin | btreeMax | bitCount => cases hn; exact .unaryOp hlen
  | add | sub | mul | div | mod | eq | neq | lt | lte | gt | gte | and | or | xor | shl | shr
  | getIdx | vecMerge => cases hn; exact .binaryOp hlen
  | pop | dequeue | popBack => cases htake
  | _ => cases hn

/-! ## Instructions that update in place -/

/-- The operand is updated in place. -/
abbrev updateAct : Operand → (Value → Except Stop (Unit × Value)) → ExecM ω Unit :=
  fun op f => writeTargetMut op f

theorem declines_bind {g : Value → Except Stop Value}
    (h : ∀ v, v.updatable = false → g v = .error (.fault .typeMismatch)) :
    Declines fun v => do return ((), ← g v) := by
  intro v hv
  simp only [h v hv]
  rfl

section Operations

variable {v : Value} (hv : v.updatable = false)
include hv

theorem onStruct_declines (f : List (U32 × Value) → Except Stop α) :
    onStruct v f = .error (.fault .typeMismatch) := by
  cases v <;> first | rfl | cases hv

theorem onSparse_declines (f : List (U32 × Value) → Except Stop α) :
    onSparse v f = .error (.fault .typeMismatch) := by
  cases v <;> first | rfl | cases hv

theorem onBTree_declines (f : List (U32 × Value) → Except Stop α) :
    onBTree v f = .error (.fault .typeMismatch) := by
  cases v <;> first | rfl | cases hv

theorem onBitset_declines (f : FasmBitset → Except Panic FasmBitset) :
    onBitset v f = .error (.fault .typeMismatch) := by
  cases v <;> first | rfl | cases hv

theorem onBitsets_declines (f : FasmBitset → FasmBitset → FasmBitset) (x : Value) :
    onBitsets f v x = .error (.fault .typeMismatch) := by
  cases v <;> first | rfl | cases hv

theorem onBitvec_declines (f : FasmBitvec → Except Panic FasmBitvec) :
    onBitvec v f = .error (.fault .typeMismatch) := by
  cases v <;> first | rfl | cases hv

end Operations

/-- The computation updates the operand last. -/
abbrev UpdatesLast (m : Operand → ExecM ω Action) : Prop := ActsLast updateAct Declines m

namespace ActsLast

variable {instr : Instruction} (hn : 0 < instr.operands.length)
include hn

theorem pushOp {f : Value → Value → Except Stop Value}
    (hf : ∀ x v, v.updatable = false → f v x = .error (.fault .typeMismatch)) :
    UpdatesLast (ω := ω) fun op => Fasm.pushOp (instr.withOperand 0 op) f :=
  getOp (by decide) fun _ => val fun x => last hn (declines_bind (hf x))

theorem keyedMut {f : Value → U32 → Except Stop Value}
    (hf : ∀ k v, v.updatable = false → f v k = .error (.fault .typeMismatch)) :
    UpdatesLast (ω := ω) fun op => Fasm.keyedMut (instr.withOperand 0 op) f :=
  getOp (by decide) fun _ => val fun _ => lift fun k => last hn (declines_bind (hf k))

theorem keyedSet {f : Value → U32 → Value → Except Stop Value}
    (hf : ∀ k x v, v.updatable = false → f v k x = .error (.fault .typeMismatch)) :
    UpdatesLast (ω := ω) fun op => Fasm.keyedSet (instr.withOperand 0 op) f :=
  getOp (by decide) fun _ => val fun _ => lift fun k => getOp (by decide) fun _ =>
    val fun x => last hn (declines_bind (hf k x))

theorem execSetField :
    UpdatesLast (ω := ω) fun op => Fasm.execSetField (instr.withOperand 0 op) :=
  getOp (by decide) fun _ => look fun _ => getOp (by decide) fun _ => val fun _ =>
    last hn fun _ hv => onStruct_declines hv _

theorem execDelField :
    UpdatesLast (ω := ω) fun op => Fasm.execDelField (instr.withOperand 0 op) :=
  getOp (by decide) fun _ => look fun _ => last hn fun _ hv => onStruct_declines hv _

theorem execVecSort (host : Host ω) :
    UpdatesLast fun op => Fasm.execVecSort (instr.withOperand 0 op) host :=
  last hn fun v hv => by cases v <;> first | rfl | cases hv

theorem execBitvecWrite :
    UpdatesLast (ω := ω) fun op => Fasm.execBitvecWrite (instr.withOperand 0 op) :=
  getOp (by decide) fun _ => val fun _ => lift fun _ => getOp (by decide) fun _ =>
    val fun _ => lift fun _ => getOp (by decide) fun _ => val fun _ => lift fun _ =>
      last hn (declines_bind fun _ hv => onBitvec_declines hv _)

theorem execBitvecPush :
    UpdatesLast (ω := ω) fun op => Fasm.execBitvecPush (instr.withOperand 0 op) :=
  getOp (by decide) fun _ => val fun _ => lift fun _ => getOp (by decide) fun _ =>
    val fun _ => lift fun _ => last hn (declines_bind fun _ hv => onBitvec_declines hv _)

end ActsLast

/-- An instruction that updates an operand in place, other than one that takes an element out,
does so last. -/
theorem executeInstruction_updatesLast (host : Host ω) (p : Program) {instr : Instruction}
    {n : Nat} (hn : instr.opcode.updatedIndex = some n) (htake : instr.opcode.takesOut = false)
    (hrel : instr.opcode ≠ .release) (hlen : n < instr.operands.length) :
    UpdatesLast fun op => executeInstruction host p (instr.withOperand n op) := by
  obtain ⟨o, operands⟩ := instr
  cases o with
  | push | enqueue | prepend =>
    cases hn
    exact .pushOp hlen fun x v hv => by cases v <;> first | rfl | cases hv
  | bitAnd | bitOr | bitXor =>
    cases hn
    exact .pushOp hlen fun x v hv => onBitsets_declines hv _ x
  | sparseDel => cases hn; exact .keyedMut hlen fun k v hv => onSparse_declines hv _
  | btreeDel => cases hn; exact .keyedMut hlen fun k v hv => onBTree_declines hv _
  | bitSet_ | bitClr | bitFlip | bitGrow =>
    cases hn
    exact .keyedMut hlen fun k v hv => onBitset_declines hv _
  | setIdx =>
    cases hn
    exact .keyedSet hlen fun k x v hv => by cases v <;> first | rfl | cases hv
  | sparseSet => cases hn; exact .keyedSet hlen fun k x v hv => onSparse_declines hv _
  | btreeSet => cases hn; exact .keyedSet hlen fun k x v hv => onBTree_declines hv _
  | setField => cases hn; exact .execSetField hlen
  | delField => cases hn; exact .execDelField hlen
  | vecSort => cases hn; exact .execVecSort hlen host
  | bitvecWrite => cases hn; exact .execBitvecWrite hlen
  | bitvecPush => cases hn; exact .execBitvecPush hlen
  | pop | dequeue | popBack => cases htake
  | release => exact absurd rfl hrel
  | _ => cases hn

/-! ## Instructions that take an element out -/

/-- What takes an element out either stops before it looks at the operand that receives it, or
has taken it. -/
theorem popOp_cases (instr : Instruction) {n : Nat} (hn : n ≠ 0)
    (f : Value → Except Stop (Value × Value)) (e : Executor ω) :
    (∃ s, ∀ op, popOp (instr.withOperand n op) f e = .error s e) ∨
      ∃ coll x e₁, instr.operands[0]? = some coll ∧ writeTargetMut coll f e = .ok x e₁ ∧
        ∀ op, popOp (instr.withOperand n op) f e = putSecond (instr.withOperand n op) x e₁ := by
  have hget (op : Operand) : (instr.withOperand n op).getOp 0 = instr.getOp 0 :=
    getOp_withOperand_ne hn.symm
  cases h₀ : instr.getOp 0 with
  | error s =>
    exact .inl ⟨s, fun op => reads_bind_error (f := fun _ => Instruction.getOp _ 0)
      ((hget op).trans h₀)⟩
  | ok coll =>
    have hrun (op : Operand) : popOp (instr.withOperand n op) f e =
        (writeTargetMut coll f >>= putSecond (instr.withOperand n op)) e :=
      reads_bind_ok (f := fun _ => Instruction.getOp _ 0) ((hget op).trans h₀)
    cases htake : writeTargetMut coll f e with
    | error s e₁ =>
      obtain rfl := Unharmed.writeTargetMut _ _ _ _ _ htake
      exact .inl ⟨s, fun op => (hrun op).trans (bind_run_error htake)⟩
    | ok x e₁ =>
      exact .inr ⟨coll, x, e₁, getOp_eq_ok h₀, htake,
        fun op => (hrun op).trans (bind_run_ok htake)⟩

end Fasm
