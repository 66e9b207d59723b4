import Fasm.Lib.ErrorMap
import Fasm.Vm.ResultTypes

/-!
# How an instruction inspects its operands

An arm of `execute_instruction` fetches operands by their positions and looks at each in one
way: as a value, as a key, as a slot that it writes.  An `Arm` is this with the looks as nodes.
Its run on a list of operands tells a stop at an operand, one that is missing or of the wrong
kind, from every other stop.  The instruction is the same run with both told alike, as
`TypeMismatch`.

The looks of an opcode are a table, `Opcode.inspected`, in the order in which its arm makes
them.
-/

namespace Fasm

open ExecM

variable {ω : Type}

/-! ## Looks -/

/-- The ways of looking at an operand. -/
inductive Kind where
  | value | key | type | label | func | syscall | init | address | release | write | update
deriving DecidableEq

/-- The operands that can be looked at in each way.  `RESERVE` takes any initial value, `ADDR`
the address of anything, and `RELEASE` does nothing to what is no register. -/
def Kind.takes : Kind → Operand → Bool
  | .value, .slot _ | .value, .imm _ => true
  | .key, .key _ | .key, .imm (.int .uint32 _) | .key, .slot _ => true
  | .type, .type _ => true
  | .label, .labelTarget _ => true
  | .func, .funcRef _ => true
  | .syscall, .syscallId _ | .syscall, .imm (.int .int32 _) => true
  | .init, _ | .address, _ | .release, _ => true
  | .write, .slot _ | .update, .slot _ => true
  | _, _ => false

/-- A look at an operand, with what it gives. -/
inductive Look : Type → Type 1
  | value : Look Value
  | key : Look U32
  | type : Look FasmType
  | label : Look Nat
  | func : Look U16
  | syscall : Look U32
  | init (t : FasmType) : Look Value
  | address : Look (Bool × U32)
  | release : Look Unit
  | write (v : Value) : Look Unit
  | update {α : Type} (f : Value → Except Stop (α × Value)) : Look α

namespace Look

variable {α : Type}

def kind : Look α → Kind
  | .value => .value
  | .key => .key
  | .type => .type
  | .label => .label
  | .func => .func
  | .syscall => .syscall
  | .init _ => .init
  | .address => .address
  | .release => .release
  | .write _ => .write
  | .update _ => .update

/-- The look, by the executor's helper for it. -/
def on : Look α → Operand → ExecM ω α
  | .value, op => readVal op
  | .key, op => reads fun e => e.readKeyOperand op
  | .type, .type t => pure t
  | .type, _ => throw (.fault .typeMismatch)
  | .label, op => liftM (labelTarget op)
  | .func, .funcRef idx => pure idx
  | .func, _ => throw (.fault .typeMismatch)
  | .syscall, op => liftM (syscallId op)
  | .init t, op => pure (immToValueForType t op)
  | .address, op => pure (slotAddress op)
  | .release, op => releaseOperand op
  | .write v, op => writeVal op v
  | .update f, op => writeTargetMut op f

/-- A look at an operand of the wrong kind is a `TypeMismatch`. -/
theorem on_eq_throw (l : Look α) {op : Operand} (h : l.kind.takes op = false) :
    (l.on op : ExecM ω α) = throw (.fault .typeMismatch) := by
  cases l with
  | init | address | release => cases h
  | key | syscall =>
    cases op with
    | imm i =>
      cases i with
      | int t n => cases t <;> first | rfl | cases h
      | _ => rfl
    | _ => first | rfl | cases h
  | _ => cases op <;> first | rfl | cases h

end Look

/-! ## Arms -/

/-- An arm of `execute_instruction`. -/
inductive Arm (ω : Type) : Type 1
  | done (a : Action)
  | stop (s : Stop)
  | act {α : Type} (m : ExecM ω α) (k : α → Arm ω)
  /-- `instr.operands.is_empty()` -/
  | whether (k : Bool → Arm ω)
  | look {α : Type} (n : Nat) (l : Look α) (k : α → Arm ω)

/-- Why an instruction stops: its operand `n` is missing or of the wrong kind, or else. -/
inductive Cause where
  | operand (n : Nat)
  | stop (s : Stop)

/-- The stop, without its cause. -/
def Cause.toStop : Cause → Stop
  | .operand _ => .fault .typeMismatch
  | .stop s => s

namespace Arm

/-- Run an arm on operands. -/
def run (ops : List Operand) : Arm ω → EStateM Cause (Executor ω) Action
  | .done a => pure a
  | .stop s => throw (.stop s)
  | .act m k => m.adaptExcept .stop >>= fun a => (k a).run ops
  | .whether k => (k ops.isEmpty).run ops
  | .look n l k =>
    match ops[n]? with
    | none => throw (.operand n)
    | some op =>
      if l.kind.takes op then (l.on op).adaptExcept .stop >>= fun a => (k a).run ops
      else throw (.operand n)

/-- Run an arm and forget the causes. -/
def exec (ops : List Operand) (arm : Arm ω) : ExecM ω Action :=
  (arm.run ops).adaptExcept Cause.toStop

/-- Whatever it finds, the arm makes these looks in this order, unless it stops before. -/
def Follows (isEmpty : Bool) : Arm ω → List (Nat × Kind) → Prop
  | .done _, looks => looks = []
  | .stop _, _ => True
  | .act _ k, looks => ∀ a, (k a).Follows isEmpty looks
  | .whether k, looks => (k isEmpty).Follows isEmpty looks
  | .look _ _ _, [] => False
  | .look n l k, x :: looks => x = (n, l.kind) ∧ ∀ a, (k a).Follows isEmpty looks

section Exec

variable {α : Type} (ops : List Operand)

@[simp] theorem exec_done (a : Action) : (.done a : Arm ω).exec ops = pure a :=
  adaptExcept_pure a

@[simp] theorem exec_stop (s : Stop) : (.stop s : Arm ω).exec ops = throw s :=
  adaptExcept_throw (Cause.stop s)

@[simp] theorem exec_act (m : ExecM ω α) (k : α → Arm ω) :
    (act m k).exec ops = m >>= fun a => (k a).exec ops := by
  rw [exec, run, adaptExcept_bind, adaptExcept_cancel fun _ => rfl]
  rfl

@[simp] theorem exec_whether (k : Bool → Arm ω) :
    (whether k).exec ops = (k ops.isEmpty).exec ops := rfl

@[simp] theorem exec_look (n : Nat) (l : Look α) (k : α → Arm ω) :
    (look n l k).exec ops = (liftM (orFault ops[n]? .typeMismatch) : ExecM ω Operand) >>=
      fun op => l.on op >>= fun a => (k a).exec ops := by
  rw [exec, run]
  cases ops[n]? with
  | none => rfl
  | some op =>
    show ((if _ then _ else _ : EStateM Cause (Executor ω) Action).adaptExcept _) = l.on op >>= _
    cases h : l.kind.takes op with
    | true =>
      rw [if_pos rfl, adaptExcept_bind, adaptExcept_cancel fun _ => rfl]
      rfl
    | false =>
      rw [l.on_eq_throw h]
      rfl

end Exec

/-- The operands have what the looks need. -/
def Finds (ops : List Operand) (looks : List (Nat × Kind)) : Prop :=
  ∀ n kind, (n, kind) ∈ looks → ∃ op, ops[n]? = some op ∧ kind.takes op = true

section Run

variable {ops : List Operand} {α : Type}

/-- After a step an arm either goes on or stops for another reason than an operand. -/
theorem adapt_bind_cases (m : ExecM ω α) (k : α → EStateM Cause (Executor ω) Action)
    (e : Executor ω) :
    (∃ a e₁, (m.adaptExcept Cause.stop >>= k) e = k a e₁) ∨
      ∃ s e₁, (m.adaptExcept Cause.stop >>= k) e = .error (.stop s) e₁ := by
  cases hm : m.adaptExcept Cause.stop e with
  | ok a e₁ => exact .inl ⟨a, e₁, bind_run_ok hm⟩
  | error c e₁ =>
    obtain ⟨s, -, rfl⟩ := adaptExcept_eq_error hm
    exact .inr ⟨s, e₁, bind_run_error hm⟩

/-- A look at an operand that is there and of the right kind. -/
theorem run_look {n : Nat} {l : Look α} {k : α → Arm ω} {op : Operand} (hop : ops[n]? = some op)
    (htakes : l.kind.takes op = true) : (look n l k).run ops =
      (l.on op).adaptExcept Cause.stop >>= fun a => (k a).run ops := by
  simp only [run, hop, htakes, if_true]

/-- Where the operands have what the looks of the arm need, it does not stop at an operand. -/
theorem Follows.run_ne : ∀ {arm : Arm ω} {looks : List (Nat × Kind)},
    arm.Follows ops.isEmpty looks → Finds ops looks → ∀ {e e' : Executor ω} {n : Nat},
    arm.run ops e ≠ .error (.operand n) e'
  | .done _, _, _, _, _, _, _ => nofun
  | .stop _, _, _, _, _, _, _ => nofun
  | .act m k, looks, h, hf, e, e', n => by
    rw [run]
    rcases adapt_bind_cases m (fun a => (k a).run ops) e with ⟨a, e₁, heq⟩ | ⟨s, e₁, heq⟩
    · rw [heq]
      exact (h a).run_ne hf
    · rw [heq]
      nofun
  | .whether k, looks, h, hf, e, e', n => (show (k _).Follows _ _ from h).run_ne hf
  | .look i l k, x :: looks, h, hf, e, e', n => by
    obtain ⟨rfl, hk⟩ := h
    obtain ⟨op, hop, htakes⟩ := hf i l.kind List.mem_cons_self
    rw [run_look hop htakes]
    rcases adapt_bind_cases (l.on op) (fun a => (k a).run ops) e with ⟨a, e₁, heq⟩ | ⟨s, e₁, heq⟩
    · rw [heq]
      exact (hk a).run_ne fun n kind hmem => hf n kind (List.mem_cons_of_mem _ hmem)
    · rw [heq]
      nofun

end Run

end Arm

/-! ## The looks of the opcodes -/

/-- The operands that the arm of an opcode inspects, in order. -/
def Opcode.inspected : Opcode → List (Nat × Kind)
  | .nop | .halt | .tmpBlock | .endTmp | .catch_ | .endTry => []
  | .reserve => [(1, .type), (2, .init), (0, .write)]
  | .release => [(0, .release)]
  | .addr => [(0, .address), (1, .write)]
  | .mov | .store | .neg | .not | .await | .peek | .peekBack | .len | .isSome | .unwrap | .isOk
  | .unwrapOk | .unwrapErr | .btreeMin | .btreeMax | .bitCount => [(0, .value), (1, .write)]
  | .add | .sub | .mul | .div | .mod | .eq | .neq | .lt | .lte | .gt | .gte | .and | .or | .xor
  | .shl | .shr | .getIdx | .vecMerge => [(0, .value), (1, .value), (2, .write)]
  | .some_ | .ok_ | .err_ => [(1, .value), (0, .write)]
  | .call | .asyncCall | .tailCall => [(0, .func), (1, .value)]
  | .jmp => [(0, .label)]
  | .jz | .jnz => [(0, .value), (1, .label)]
  | .ret => [(0, .value)]
  | .syscall | .asyncSyscall => [(0, .syscall), (1, .value)]
  | .push | .enqueue | .prepend | .bitAnd | .bitOr | .bitXor | .sparseDel | .btreeDel | .bitSet_
  | .bitClr | .bitFlip | .bitGrow => [(1, .value), (0, .update)]
  | .pop | .dequeue | .popBack => [(0, .update), (1, .write)]
  | .setIdx | .sparseSet | .btreeSet | .bitvecPush => [(1, .value), (2, .value), (0, .update)]
  | .getField | .hasField => [(1, .key), (0, .value), (2, .write)]
  | .setField => [(1, .key), (2, .value), (0, .update)]
  | .delField => [(1, .key), (0, .update)]
  | .cast => [(0, .value), (1, .type), (2, .write)]
  | .try_ => [(0, .label), (1, .label)]
  | .vecSort => [(0, .update)]
  | .vecFilter | .vecSlice => [(0, .value), (1, .value), (2, .value), (3, .write)]
  | .sparseGet | .btreeGet | .sparseHas | .btreeHas | .bitGet =>
    [(1, .value), (0, .value), (2, .write)]
  | .bitvecRead => [(1, .value), (2, .value), (0, .value), (3, .write)]
  | .bitvecWrite => [(1, .value), (2, .value), (3, .value), (0, .update)]

/-- The operands that an instruction inspects: a `RET` may be without. -/
def Instruction.inspected (instr : Instruction) : List (Nat × Kind) :=
  if instr.opcode = .ret ∧ instr.operands = [] then [] else instr.opcode.inspected

/-! ## Instructions -/

/-- The computation is an arm that makes these looks. -/
def Inspects (isEmpty : Bool) (looks : List (Nat × Kind)) (m : List Operand → ExecM ω Action) :
    Prop :=
  ∃ arm : Arm ω, (∀ ops, m ops = arm.exec ops) ∧ arm.Follows isEmpty looks

namespace Inspects

variable {isEmpty : Bool} {looks : List (Nat × Kind)} {α : Type} {o : Opcode}

theorem done (a : Action) :
    Inspects isEmpty [] fun _ => (pure a : ExecM ω Action) :=
  ⟨.done a, fun _ => rfl, rfl⟩

theorem stop (s : Stop) : Inspects isEmpty looks fun _ => (throw s : ExecM ω Action) :=
  ⟨.stop s, fun _ => rfl, trivial⟩

theorem act (m : ExecM ω α) {k : α → List Operand → ExecM ω Action}
    (hk : ∀ a, Inspects isEmpty looks (k a)) :
    Inspects isEmpty looks fun ops => m >>= fun a => k a ops := by
  obtain ⟨arm, harm⟩ := Classical.skolem.mp hk
  refine ⟨.act m arm, fun ops => ?_, fun a => (harm a).2⟩
  simp only [(harm _).1, Arm.exec_act]

/-- Fetching an operand and looking at it. -/
theorem look (n : Nat) (l : Look α) {k : α → List Operand → ExecM ω Action}
    (hk : ∀ a, Inspects isEmpty looks (k a)) :
    Inspects isEmpty ((n, l.kind) :: looks) fun ops =>
      (liftM (Instruction.getOp ⟨o, ops⟩ n) : ExecM ω Operand) >>= fun op =>
        l.on op >>= fun a => k a ops := by
  obtain ⟨arm, harm⟩ := Classical.skolem.mp hk
  refine ⟨.look n l arm, fun ops => ?_, rfl, fun a => (harm a).2⟩
  simp only [(harm _).1, Arm.exec_look]
  rfl

theorem val (n : Nat) {k : Value → List Operand → ExecM ω Action}
    (hk : ∀ v, Inspects isEmpty looks (k v)) :
    Inspects isEmpty ((n, .value) :: looks) fun ops =>
      (liftM (Instruction.getOp ⟨o, ops⟩ n) : ExecM ω Operand) >>= fun op =>
        readVal op >>= fun v => k v ops :=
  look n .value hk

theorem key (n : Nat) {k : U32 → List Operand → ExecM ω Action}
    (hk : ∀ v, Inspects isEmpty looks (k v)) :
    Inspects isEmpty ((n, .key) :: looks) fun ops =>
      (liftM (Instruction.getOp ⟨o, ops⟩ n) : ExecM ω Operand) >>= fun op =>
        reads (fun e => e.readKeyOperand op) >>= fun v => k v ops :=
  look n .key hk

/-- Fetching an operand that is to be a type. -/
theorem type (n : Nat) {k : FasmType → List Operand → ExecM ω Action}
    (hk : ∀ t, Inspects isEmpty looks (k t)) :
    Inspects isEmpty ((n, .type) :: looks) fun ops =>
      (liftM (Instruction.getOp ⟨o, ops⟩ n) : ExecM ω Operand) >>= fun op =>
        match op with
        | .type t => k t ops
        | _ => throw (.fault .typeMismatch) := by
  refine (congrArg (Inspects isEmpty _) (funext fun ops => ?_)).mp (look (o := o) n .type hk)
  refine bind_congr fun op => ?_
  cases op <;> rfl

/-- Fetching an operand and writing it, as the last thing. -/
theorem write (n : Nat) (v : Value) (a : Action) :
    Inspects isEmpty [(n, .write)] fun ops =>
      (liftM (Instruction.getOp ⟨o, ops⟩ n) : ExecM ω Operand) >>= fun op =>
        writeVal op v >>= fun _ => pure a :=
  look n (.write v) fun _ => done a

/-- Fetching an operand and updating it in place. -/
theorem update (n : Nat) (f : Value → Except Stop (α × Value))
    {k : α → List Operand → ExecM ω Action} (hk : ∀ a, Inspects isEmpty looks (k a)) :
    Inspects isEmpty ((n, .update) :: looks) fun ops =>
      (liftM (Instruction.getOp ⟨o, ops⟩ n) : ExecM ω Operand) >>= fun op =>
        writeTargetMut op f >>= fun a => k a ops :=
  look n (.update f) hk

/-! ### Families -/

theorem binaryOp {f : Value → Value → Except Stop Value} :
    Inspects isEmpty [(0, .value), (1, .value), (2, .write)] fun ops =>
      (Fasm.binaryOp ⟨o, ops⟩ f : ExecM ω Action) :=
  val 0 fun _ => val 1 fun _ => act _ fun _ => write 2 _ _

theorem unaryOp {f : Value → Except Stop Value} :
    Inspects isEmpty [(0, .value), (1, .write)] fun ops =>
      (Fasm.unaryOp ⟨o, ops⟩ f : ExecM ω Action) :=
  val 0 fun _ => act _ fun _ => write 1 _ _

theorem wrapOp {f : Value → Except Stop Value} :
    Inspects isEmpty [(1, .value), (0, .write)] fun ops =>
      (Fasm.wrapOp ⟨o, ops⟩ f : ExecM ω Action) :=
  val 1 fun _ => act _ fun _ => write 0 _ _

theorem fieldGet {f : List (U32 × Value) → U32 → Except Stop Value} :
    Inspects isEmpty [(1, .key), (0, .value), (2, .write)] fun ops =>
      (Fasm.fieldGet ⟨o, ops⟩ f : ExecM ω Action) :=
  key 1 fun _ => val 0 fun _ => act _ fun _ => write 2 _ _

theorem keyedGet {f : Value → U32 → Except Stop Value} :
    Inspects isEmpty [(1, .value), (0, .value), (2, .write)] fun ops =>
      (Fasm.keyedGet ⟨o, ops⟩ f : ExecM ω Action) :=
  val 1 fun _ => act _ fun _ => val 0 fun _ => act _ fun _ => write 2 _ _

theorem pushOp {f : Value → Value → Except Stop Value} :
    Inspects isEmpty [(1, .value), (0, .update)] fun ops =>
      (Fasm.pushOp ⟨o, ops⟩ f : ExecM ω Action) :=
  val 1 fun _ => update 0 _ fun _ => done _

theorem popOp {f : Value → Except Stop (Value × Value)} :
    Inspects isEmpty [(0, .update), (1, .write)] fun ops =>
      (Fasm.popOp ⟨o, ops⟩ f : ExecM ω Action) :=
  update 0 f fun _ => write 1 _ _

theorem keyedMut {f : Value → U32 → Except Stop Value} :
    Inspects isEmpty [(1, .value), (0, .update)] fun ops =>
      (Fasm.keyedMut ⟨o, ops⟩ f : ExecM ω Action) :=
  val 1 fun _ => act _ fun _ => update 0 _ fun _ => done _

theorem keyedSet {f : Value → U32 → Value → Except Stop Value} :
    Inspects isEmpty [(1, .value), (2, .value), (0, .update)] fun ops =>
      (Fasm.keyedSet ⟨o, ops⟩ f : ExecM ω Action) :=
  val 1 fun _ => act _ fun _ => val 2 fun _ => update 0 _ fun _ => done _

theorem condJump (taken : Bool) :
    Inspects isEmpty [(0, .value), (1, .label)] fun ops =>
      (Fasm.condJump ⟨o, ops⟩ taken : ExecM ω Action) :=
  val 0 fun _ => look 1 .label fun _ => done _

theorem syscallOp (host : Host ω) (wrap : Value → Value) :
    Inspects isEmpty [(0, .syscall), (1, .value)] fun ops =>
      Fasm.syscallOp ⟨o, ops⟩ host wrap :=
  look 0 .syscall fun _ => val 1 fun _ => act _ fun _ => act _ fun _ => act _ fun _ => done _

/-- The callee is checked before the arguments are fetched. -/
theorem callOp_eq (instr : Instruction) (p : Program) (action : Nat → Value → Action) :
    (Fasm.callOp instr p action : ExecM ω Action) = (do
      let idx ← Look.func.on (← instr.getOp 0)
      if idx.toNat < p.functions.length then
        let args ← readVal (← instr.getOp 1)
        return action idx.toNat args
      else throw (.fault .undeclaredSlot)) := by
  funext e
  unfold Fasm.callOp callTarget
  cases instr.getOp 0 with
  | error s => rfl
  | ok op =>
    cases op with
    | funcRef idx =>
      show (reads (fun e => if idx.toNat < p.functions.length then _ else _) >>= _) e =
        (if idx.toNat < p.functions.length then _ else _ : ExecM ω Action) e
      by_cases hidx : idx.toNat < p.functions.length
      · simp only [hidx, if_true]
        cases instr.getOp 1 with
        | error s => rfl
        | ok op₁ =>
          show (reads (fun e => e.readOperand op₁ >>= fun args => pure (idx.toNat, args)) >>= _) e =
            (reads (fun e => e.readOperand op₁) >>= _) e
          cases hread : e.readOperand op₁ with
          | ok args =>
            rw [reads_bind_ok (a := (idx.toNat, args)) (by rw [hread]; rfl), reads_bind_ok hread]
          | error s =>
            rw [reads_bind_error (s := s) (by rw [hread]; rfl), reads_bind_error hread]
      · simp only [hidx, if_false]
        rfl
    | _ => rfl

theorem callOp (p : Program) (action : Nat → Value → Action) :
    Inspects isEmpty [(0, .func), (1, .value)] fun ops =>
      (Fasm.callOp ⟨o, ops⟩ p action : ExecM ω Action) := by
  simp only [callOp_eq]
  refine look 0 .func fun idx => ?_
  by_cases hidx : idx.toNat < p.functions.length
  · simp only [hidx, if_true]
    exact val 1 fun _ => done _
  · simp only [hidx, if_false]
    exact stop _

/-! ### Single instructions -/

/-- The three operands are fetched first; until the write nothing has changed. -/
theorem execReserve : Inspects isEmpty [(1, .type), (2, .init), (0, .write)] fun ops =>
    (Fasm.execReserve ⟨o, ops⟩ : ExecM ω Action) := by
  refine ⟨.look 1 .type fun t => .look 2 (.init t) fun v => .look 0 (.write v) fun _ =>
    .done .continue_, fun ops => ?_, rfl, fun _ => ⟨rfl, fun _ => ⟨rfl, fun _ => rfl⟩⟩⟩
  simp only [Arm.exec_look, Arm.exec_done]
  rcases ops with _ | ⟨idxOp, _ | ⟨typeOp, _ | ⟨initOp, ops⟩⟩⟩
  · rfl
  · rfl
  · cases typeOp <;> rfl
  · cases typeOp <;> rfl

/-- `imm_operand` takes the operands that `read_operand` takes. -/
theorem store (host : Host ω) (p : Program) : Inspects isEmpty [(0, .value), (1, .write)] fun ops =>
    executeInstruction host p ⟨.store, ops⟩ := by
  simp only [executeInstruction, View.immOperand_eq]
  exact val 0 fun _ => write 1 _ _

theorem execAddr : Inspects isEmpty [(0, .address), (1, .write)] fun ops =>
    (Fasm.execAddr ⟨o, ops⟩ : ExecM ω Action) := by
  have h : Inspects isEmpty [(0, .address), (1, .write)] fun ops =>
      ((liftM (Instruction.getOp ⟨o, ops⟩ 0) : ExecM ω Operand) >>= fun op =>
        Look.address.on op >>= fun a =>
          (liftM (Instruction.getOp ⟨o, ops⟩ 1) : ExecM ω Operand) >>= fun op =>
            writeVal op (.refMut a.1 a.2) >>= fun _ => pure .continue_) :=
    look 0 .address fun a => write 1 _ _
  exact h

theorem execRet : Inspects isEmpty (if isEmpty then [] else [(0, .value)]) fun ops =>
    (Fasm.execRet ⟨o, ops⟩ : ExecM ω Action) := by
  refine ⟨.whether fun isEmpty => if isEmpty then .done (.return_ .null) else
    .look 0 .value fun v => .done (.return_ v), fun ops => ?_, ?_⟩
  · rw [Arm.exec_whether]
    cases ops with
    | nil => rfl
    | cons op ops =>
      show _ = (Arm.look 0 .value fun v => .done (.return_ v)).exec _
      rw [Arm.exec_look]
      rfl
  · cases isEmpty with
    | true => rfl
    | false => exact ⟨rfl, fun _ => rfl⟩

theorem execSetField : Inspects isEmpty [(1, .key), (2, .value), (0, .update)] fun ops =>
    (Fasm.execSetField ⟨o, ops⟩ : ExecM ω Action) :=
  key 1 fun _ => val 2 fun _ => update 0 _ fun _ => done _

theorem execDelField : Inspects isEmpty [(1, .key), (0, .update)] fun ops =>
    (Fasm.execDelField ⟨o, ops⟩ : ExecM ω Action) :=
  key 1 fun _ => update 0 _ fun _ => done _

theorem execCast : Inspects isEmpty [(0, .value), (1, .type), (2, .write)] fun ops =>
    (Fasm.execCast ⟨o, ops⟩ : ExecM ω Action) :=
  val 0 fun _ => type 1 fun _ => act _ fun _ => write 2 _ _

/-- The two targets are one look after the other. -/
theorem execTry_eq (instr : Instruction) : (Fasm.execTry instr : ExecM ω Action) = do
    let catchIp ← Look.label.on (← instr.getOp 0)
    let endIp ← Look.label.on (← instr.getOp 1)
    let frameSnap ← reads fun e => e.last.map fun cf => cf.frame.snapshot
    let globalSnap ← reads fun e => .ok e.globals.snapshot
    assignLast fun cf => { cf with tryGuard := some ⟨catchIp, endIp, frameSnap, globalSnap⟩ }
    return .continue_ := by
  unfold Fasm.execTry Instruction.tryTargets
  cases instr.getOp 0 with
  | error s => rfl
  | ok op₀ =>
    show ((liftM (labelTarget op₀ >>= _) : ExecM ω (Nat × Nat)) >>= _) =
      ((liftM (labelTarget op₀) : ExecM ω Nat) >>= _)
    cases labelTarget op₀ with
    | error s => rfl
    | ok catchIp =>
      cases instr.getOp 1 with
      | error s => rfl
      | ok op₁ =>
        show ((liftM (labelTarget op₁ >>= _) : ExecM ω (Nat × Nat)) >>= _) =
          ((liftM (labelTarget op₁) : ExecM ω Nat) >>= _)
        cases labelTarget op₁ <;> rfl

theorem execTry : Inspects isEmpty [(0, .label), (1, .label)] fun ops =>
    (Fasm.execTry ⟨o, ops⟩ : ExecM ω Action) := by
  simp only [execTry_eq]
  exact look 0 .label fun _ => look 1 .label fun _ => act _ fun _ => act _ fun _ => act _ fun _ =>
    done _

theorem execVecSort (host : Host ω) : Inspects isEmpty [(0, .update)] fun ops =>
    Fasm.execVecSort ⟨o, ops⟩ host :=
  update 0 _ fun _ => done _

theorem execVecFilter :
    Inspects isEmpty [(0, .value), (1, .value), (2, .value), (3, .write)] fun ops =>
      (Fasm.execVecFilter ⟨o, ops⟩ : ExecM ω Action) := by
  refine val 0 fun src => val 1 fun _ => act _ fun _ => val 2 fun _ => ?_
  cases src with
  | vec v => exact write 3 _ _
  | _ => exact stop _

theorem execVecSlice :
    Inspects isEmpty [(0, .value), (1, .value), (2, .value), (3, .write)] fun ops =>
      (Fasm.execVecSlice ⟨o, ops⟩ : ExecM ω Action) := by
  refine val 0 fun src => val 1 fun _ => act _ fun _ => val 2 fun _ => act _ fun _ => ?_
  cases src with
  | vec v => exact write 3 _ _
  | _ => exact stop _

theorem execBitvecRead :
    Inspects isEmpty [(1, .value), (2, .value), (0, .value), (3, .write)] fun ops =>
      (Fasm.execBitvecRead ⟨o, ops⟩ : ExecM ω Action) := by
  refine val 1 fun _ => act _ fun _ => val 2 fun _ => act _ fun _ => val 0 fun src => ?_
  cases src with
  | bitvec bv => exact write 3 _ _
  | _ => exact stop _

theorem execBitvecWrite :
    Inspects isEmpty [(1, .value), (2, .value), (3, .value), (0, .update)] fun ops =>
      (Fasm.execBitvecWrite ⟨o, ops⟩ : ExecM ω Action) :=
  val 1 fun _ => act _ fun _ => val 2 fun _ => act _ fun _ => val 3 fun _ => act _ fun _ =>
    update 0 _ fun _ => done _

theorem execBitvecPush : Inspects isEmpty [(1, .value), (2, .value), (0, .update)] fun ops =>
    (Fasm.execBitvecPush ⟨o, ops⟩ : ExecM ω Action) :=
  val 1 fun _ => act _ fun _ => val 2 fun _ => act _ fun _ => update 0 _ fun _ => done _

end Inspects

/-- Every opcode inspects the operands that the table gives. -/
theorem executeInstruction_inspects (host : Host ω) (p : Program) (instr : Instruction) :
    Inspects instr.operands.isEmpty instr.inspected fun ops =>
      executeInstruction host p ⟨instr.opcode, ops⟩ := by
  obtain ⟨o, operands⟩ := instr
  cases o with
  | nop | halt => exact .done _
  | tmpBlock | endTmp | endTry => exact .act _ fun _ => .done _
  | catch_ => exact .act _ fun _ => .act _ fun _ => .done _
  | reserve => exact .execReserve
  | release => exact .look 0 .release fun _ => .done _
  | mov => exact .val 0 fun _ => .write 1 _ _
  | store => exact .store host p
  | addr => exact .execAddr
  | call | asyncCall | tailCall => exact .callOp p _
  | jmp => exact .look 0 .label fun _ => .done _
  | jz | jnz => exact .condJump _
  | ret =>
    cases operands with
    | nil => exact .execRet
    | cons => exact .execRet
  | syscall | asyncSyscall => exact .syscallOp host _
  | try_ => exact .execTry
  | setField => exact .execSetField
  | delField => exact .execDelField
  | cast => exact .execCast
  | vecSort => exact .execVecSort host
  | vecFilter => exact .execVecFilter
  | vecSlice => exact .execVecSlice
  | bitvecRead => exact .execBitvecRead
  | bitvecWrite => exact .execBitvecWrite
  | bitvecPush => exact .execBitvecPush
  | pop | dequeue | popBack => exact .popOp
  | push | enqueue | prepend | bitAnd | bitOr | bitXor => exact .pushOp
  | sparseDel | btreeDel | bitSet_ | bitClr | bitFlip | bitGrow => exact .keyedMut
  | setIdx | sparseSet | btreeSet => exact .keyedSet
  | getField | hasField => exact .fieldGet
  | sparseGet | sparseHas | btreeGet | btreeHas | bitGet => exact .keyedGet
  | some_ | ok_ | err_ => exact .wrapOp
  | neg | not | await | peek | peekBack | len | isSome | unwrap | isOk | unwrapOk | unwrapErr
  | btreeMin | btreeMax | bitCount => exact .unaryOp
  | add | sub | mul | div | mod | eq | neq | lt | lte | gt | gte | and | or | xor | shl | shr
  | getIdx | vecMerge => exact .binaryOp

end Fasm
