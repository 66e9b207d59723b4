import Fasm.Vm.Simple

/-!
# The shape of every opcode

Nearly every opcode is `Simple`; the ten that are not push or pop `TMP` frames, take
an element out of a collection before they write it, call a syscall handler, or set
the guard.  All but the last run on the top frame without touching its guard.
-/

namespace Fasm

variable {ω : Type}

/-! ## Opcodes -/

/-- The opcodes that set or clear the guard of the top frame. -/
def Opcode.setsGuard : Opcode → Bool
  | .try_ | .catch_ | .endTry => true
  | _ => false

/-- The opcodes whose operation can panic. -/
def Opcode.mayPanic : Opcode → Bool
  | .div | .mod | .bitSet_ | .bitFlip | .bitvecWrite | .bitvecPush => true
  | _ => false

/-- What an instruction may stop with: a panic only at an opcode that can panic, and never
for want of a frame. -/
def Stop.allowed (op : Opcode) (s : Stop) : Prop :=
  NoPanic s ∨ op.mayPanic = true ∧ s ≠ .panic .emptyCallStack

theorem Stop.allowed_of_noPanic {op : Opcode} (s : Stop) (h : NoPanic s) : s.allowed op := .inl h

/-! ### Operations that can panic -/

section Partial

/-- The panics of value operations. -/
abbrev OfValue (x : Panic) : Prop := x ≠ .emptyCallStack

theorem raises_i64Div (a b : U64) : Raises OfValue (i64Div a b) := by
  unfold i64Div
  split
  · simp
  · split <;> simp

theorem raises_i64Rem (a b : U64) : Raises OfValue (i64Rem a b) := by
  unfold i64Rem
  split
  · simp
  · split <;> simp

theorem raises_numericOp {f : U64 → U64 → Except Panic U64} (g : U64 → U64 → U64)
    (hf : ∀ x y, Raises OfValue (f x y)) (a b : Value) : Raises OfValue (numericOp f g a b) := by
  unfold numericOp
  split
  · split
    · exact (hf _ _).bind fun _ => .pure _
    · exact .ok _
  all_goals exact .ok _

theorem raises_updateByte (bytes : List U8) (i : Nat) (f : U8 → U8) :
    Raises OfValue (updateByte bytes i f) := by
  unfold updateByte
  split <;> simp

theorem raises_updateGrown (b : FasmBitset) (idx : U32) (f : U8 → U8) :
    Raises OfValue (b.updateGrown idx f) :=
  (raises_updateByte _ _ _).bind fun _ => .pure _

theorem raises_writeBits (bv : FasmBitvec) (start : U64) (len : U32) (v : U64) :
    Raises OfValue (bv.writeBits start len v) := by
  refine .bind ?_ fun _ => .pure _
  generalize growBytes _ _ = bytes
  induction List.range (FasmBitvec.clamp len) generalizing bytes with
  | nil => exact .ok _
  | cons i is ih => exact (raises_updateByte _ _ _).bind fun _ => ih _

variable {α : Type} {op : Opcode} (h : op.mayPanic = true)
include h

theorem raises_orPanic {x : Except Panic α} (hx : Raises OfValue x) :
    Raises (Stop.allowed op) (orPanic x) := by
  cases x with
  | ok a => exact .ok _
  | error e =>
    have he : e ≠ .emptyCallStack := hx e rfl
    exact Raises.error.mpr (.inr ⟨h, by simpa using he⟩)

theorem raises_divChecked {f : Value → Value → Except Panic (Option Value)}
    (hf : ∀ a b, Raises OfValue (f a b)) (a b : Value) :
    Raises (Stop.allowed op) (divChecked f a b) := by
  unfold divChecked
  split
  · refine (raises_orPanic h (hf a b)).bind fun _ => ?_
    exact .mono Stop.allowed_of_noPanic (raises_orFault _ _)
  · exact Raises.error.mpr (.inl (noPanic_fault _))

theorem raises_onBitset_partial {f : FasmBitset → Except Panic FasmBitset}
    (hf : ∀ b, Raises OfValue (f b)) (a : Value) : Raises (Stop.allowed op) (onBitset a f) := by
  cases a with
  | bitset b => exact Raises.map.mpr (raises_orPanic h (hf b))
  | _ => exact Raises.error.mpr (.inl (noPanic_fault _))

theorem raises_onBitvec {f : FasmBitvec → Except Panic FasmBitvec}
    (hf : ∀ b, Raises OfValue (f b)) (a : Value) : Raises (Stop.allowed op) (onBitvec a f) := by
  cases a with
  | bitvec b => exact Raises.map.mpr (raises_orPanic h (hf b))
  | _ => exact Raises.error.mpr (.inl (noPanic_fault _))

end Partial

/-! ### Operations that do not panic -/

section Total

variable (a b : Value)

theorem raises_checked {op : Value → Value → Except Panic (Option Value)}
    (h : ∃ o, op a b = .ok o) : Raises NoPanic (checked op a b) := by
  obtain ⟨o, ho⟩ := h
  simp only [checked, ho]
  exact raises_orFault o _

/-- Wrapping arithmetic does not panic. -/
theorem numericOp_total (f g : U64 → U64 → U64) :
    ∃ o, numericOp (fun x y => .ok (f x y)) g a b = .ok o := by
  unfold numericOp
  split
  · split <;> exact ⟨_, rfl⟩
  all_goals exact ⟨_, rfl⟩

theorem raises_compared (op : Value → Value → Option Bool) :
    Raises NoPanic (compared op a b) := Raises.map.mpr (raises_orFault _ _)

theorem raises_shifted (op : Value → U32 → Option Value) : Raises NoPanic (shifted op a b) :=
  (raises_asU32 b).bind fun _ => raises_orFault _ _

theorem raises_getIdx : Raises NoPanic (getIdx a b) :=
  (raises_asU32 b).bind fun _ => by split <;> simp

theorem raises_lenOf : Raises NoPanic (lenOf a) := by
  cases a <;> simp [lenOf]

theorem raises_peek : Raises NoPanic (peek a) := by
  cases a <;> simp [peek]

theorem raises_peekBack : Raises NoPanic (peekBack a) := by
  cases a <;> simp [peekBack]

theorem raises_onBitsets (f : FasmBitset → FasmBitset → FasmBitset) :
    Raises NoPanic (onBitsets f a b) := by
  unfold onBitsets
  split <;> simp

variable {α : Type}

theorem raises_onStruct {f : List (U32 × Value) → Except Stop α}
    (hf : ∀ s, Raises NoPanic (f s)) : Raises NoPanic (onStruct a f) := by
  cases a <;> simp [onStruct, hf]

theorem raises_onSparse {f : List (U32 × Value) → Except Stop α}
    (hf : ∀ s, Raises NoPanic (f s)) : Raises NoPanic (onSparse a f) := by
  cases a <;> simp [onSparse, hf]

theorem raises_onBTree {f : List (U32 × Value) → Except Stop α}
    (hf : ∀ s, Raises NoPanic (f s)) : Raises NoPanic (onBTree a f) := by
  cases a <;> simp [onBTree, hf]

theorem raises_onBitset {f : FasmBitset → FasmBitset} :
    Raises NoPanic (onBitset a fun b => .ok (f b)) := by
  cases a <;> simp [onBitset]

end Total

@[simp] theorem raises_popLast (l : List Value) : Raises NoPanic (popLast l) :=
  (raises_orFault _ _).bind fun _ => .pure _

@[simp] theorem raises_popFront (l : List Value) : Raises NoPanic (popFront l) :=
  (raises_orFault _ _).bind fun _ => .pure _

/-! ## The theorem -/

/-- The opcodes that do more than one thing to the state, or something else than to write
slots. -/
def Opcode.isSimple : Opcode → Bool
  | .tmpBlock | .endTmp | .pop | .dequeue | .popBack | .syscall | .asyncSyscall
  | .try_ | .catch_ | .endTry => false
  | _ => true

/-- The opcodes that can ask for something else than the next instruction. -/
def Opcode.isControl : Opcode → Bool
  | .call | .asyncCall | .tailCall | .jmp | .jz | .jnz | .ret | .halt | .catch_ => true
  | _ => false

/-- `instr` can return the action: jumps name their target as an operand or come from a
`CATCH`, calls name a function of the program. -/
def Instruction.Yields (p : Program) (instr : Instruction) : Action → Prop
  | .continue_ => instr.opcode.isControl = false ∨ instr.opcode ∈ [.jz, .jnz]
  | .jump t =>
    (instr.opcode = .jmp ∧ ∃ l, instr.operands[0]? = some (.labelTarget l) ∧ t = l.toNat) ∨
    (instr.opcode ∈ [.jz, .jnz] ∧ ∃ l, instr.operands[1]? = some (.labelTarget l) ∧ t = l.toNat) ∨
    instr.opcode = .catch_
  | .callFunc i _ =>
    instr.opcode ∈ [.call, .asyncCall] ∧ i < p.functions.length ∧
      ∃ idx, instr.operands[0]? = some (.funcRef idx) ∧ i = idx.toNat
  | .tailCall i _ =>
    instr.opcode = .tailCall ∧ i < p.functions.length ∧
      ∃ idx, instr.operands[0]? = some (.funcRef idx) ∧ i = idx.toNat
  | .return_ _ => instr.opcode = .ret
  | .halt => instr.opcode = .halt

/-- The operand that receives the result of an opcode that writes one. -/
def Opcode.resultIndex : Opcode → Option Nat
  | .reserve | .some_ | .ok_ | .err_ => some 0
  | .mov | .store | .addr | .neg | .not | .await | .peek | .peekBack | .len | .isSome | .unwrap
  | .isOk | .unwrapOk | .unwrapErr | .btreeMin | .btreeMax | .bitCount
  | .pop | .dequeue | .popBack => some 1
  | .add | .sub | .mul | .div | .mod | .eq | .neq | .lt | .lte | .gt | .gte | .and | .or | .xor
  | .shl | .shr | .getIdx | .getField | .hasField | .cast | .vecMerge
  | .sparseGet | .sparseHas | .btreeGet | .btreeHas | .bitGet => some 2
  | .vecFilter | .vecSlice | .bitvecRead => some 3
  | _ => none

/-- The operand to which an instruction writes its result. -/
def Instruction.destination (instr : Instruction) : Option Operand :=
  instr.opcode.resultIndex.bind (instr.operands[·]?)

/-- The operand that an opcode updates in place, or releases. -/
def Opcode.updatedIndex : Opcode → Option Nat
  | .release | .setField | .delField | .push | .pop | .enqueue | .dequeue | .prepend | .popBack
  | .setIdx | .vecSort | .sparseSet | .sparseDel | .btreeSet | .btreeDel | .bitSet_ | .bitClr
  | .bitFlip | .bitAnd | .bitOr | .bitXor | .bitGrow | .bitvecWrite | .bitvecPush => some 0
  | _ => none

/-- The operand that an instruction updates in place, or releases. -/
def Instruction.updated (instr : Instruction) : Option Operand :=
  instr.opcode.updatedIndex.bind (instr.operands[·]?)

/-- A target is one of the operands. -/
theorem mem_operands_of_target {instr : Instruction} {op : Operand}
    (h : instr.destination = some op ∨ instr.updated = some op) : op ∈ instr.operands := by
  rcases h with h | h
  · obtain ⟨n, -, h⟩ := Option.bind_eq_some_iff.mp h
    exact List.mem_of_getElem? h
  · obtain ⟨n, -, h⟩ := Option.bind_eq_some_iff.mp h
    exact List.mem_of_getElem? h

section Control

variable {E : Stop → Prop} (hE : ∀ s, NoPanic s → E s) {dst upd : Operand → Prop}
  {p : Program}
  {instr : Instruction}

/-- A call target is a function of the program that operand 0 names. -/
theorem callTarget_ok {e : Executor ω} {i : Nat} {args : Value}
    (h : callTarget instr p e = .ok (i, args)) :
    i < p.functions.length ∧ ∃ idx, instr.operands[0]? = some (.funcRef idx) ∧ i = idx.toNat := by
  obtain ⟨op, hop, h⟩ := bind_eq_ok h
  cases op with
  | funcRef idx =>
    simp only at h
    split at h
    case isTrue hlt =>
      obtain ⟨op₁, -, h⟩ := bind_eq_ok h
      obtain ⟨x, -, h⟩ := bind_eq_ok h
      cases h
      exact ⟨hlt, idx, getOp_eq_ok hop, rfl⟩
    case isFalse => cases h
  | _ => cases h

theorem labelTarget_ok {op : Operand} {t : Nat} (h : labelTarget op = .ok t) :
    ∃ l, op = .labelTarget l ∧ t = l.toNat := by
  cases op with
  | labelTarget l => cases h; exact ⟨l, rfl, rfl⟩
  | _ => cases h

namespace Simple

theorem callOp {action : Nat → Value → Action}
    (h : ∀ i args, (i < p.functions.length ∧
      ∃ idx, instr.operands[0]? = some (.funcRef idx) ∧ i = idx.toNat) →
      instr.Yields p (action i args)) :
    Simple E (instr.Yields p) dst upd (callOp instr p action : ExecM ω Action) :=
  .look (.callTarget instr p) fun _ r hr => .done (h r.1 r.2 (callTarget_ok hr))

include hE

theorem jump (h : ∀ l : U32, instr.operands[0]? = some (.labelTarget l) →
      instr.Yields p (.jump l.toNat)) :
    Simple E (instr.Yields p) dst upd
      ((liftM (instr.getOp 0) : ExecM ω Operand) >>= fun op =>
        (liftM (labelTarget op) : ExecM ω Nat) >>= fun t => pure (.jump t)) := by
  refine .getOp hE fun op hop => .lift ((raises_labelTarget op).mono hE) fun t ht => .done ?_
  obtain ⟨l, rfl, rfl⟩ := labelTarget_ok ht
  exact h l hop

theorem condJump (taken : Bool) (hc : instr.Yields p .continue_)
    (h : ∀ l : U32, instr.operands[1]? = some (.labelTarget l) →
      instr.Yields p (.jump l.toNat)) :
    Simple E (instr.Yields p) dst upd (condJump instr taken : ExecM ω Action) := by
  refine .getOp hE fun _ _ => .val fun _ => .getOp hE fun op hop =>
    .lift ((raises_labelTarget op).mono hE) fun t ht => .done ?_
  obtain ⟨l, rfl, rfl⟩ := labelTarget_ok ht
  split
  · exact h l hop
  · exact hc

theorem execRet (h : ∀ v, instr.Yields p (.return_ v)) :
    Simple E (instr.Yields p) dst upd (execRet instr : ExecM ω Action) := by
  unfold Fasm.execRet
  split
  · exact .done (h _)
  · exact .getOp hE fun _ _ => .val fun v => .done (h v)

end Simple

end Control

/-- All other opcodes read first and make at most one change. -/
theorem executeInstruction_simple (host : Host ω) (p : Program) {instr : Instruction}
    (h : instr.opcode.isSimple = true) :
    Simple (Stop.allowed instr.opcode) (instr.Yields p) (instr.destination = some ·)
      (instr.updated = some ·) (executeInstruction host p instr) := by
  obtain ⟨op, operands⟩ := instr
  have hE : ∀ s, NoPanic s → Stop.allowed op s := Stop.allowed_of_noPanic
  have hc : op.isControl = false → Instruction.Yields p ⟨op, operands⟩ .continue_ := .inl
  cases op with
  | tmpBlock | endTmp | pop | dequeue | popBack | syscall | asyncSyscall | try_ | catch_
  | endTry => cases h
  | nop => exact .done (hc rfl)
  | halt => exact .done rfl
  | reserve => exact .execReserve hE (hc rfl) fun _ => id
  | release => exact .getOp hE fun _ hop => .release hop (hc rfl)
  | mov => exact .getOp hE fun _ _ => .val fun v => .put hE (hc rfl) (fun _ => id) v
  | store =>
    exact .getOp hE fun op _ => .look (.immediate op) fun _ v _ =>
      .put hE (hc rfl) (fun _ => id) v
  | addr => exact .execAddr hE (hc rfl) fun _ => id
  | add | sub | mul =>
    exact .binaryOp hE (hc rfl)
      (fun a b => .mono hE (raises_checked a b (numericOp_total a b _ _))) fun _ => id
  | div =>
    exact .binaryOp hE (hc rfl) (raises_divChecked rfl (raises_numericOp _ raises_i64Div))
      fun _ => id
  | mod =>
    exact .binaryOp hE (hc rfl) (raises_divChecked rfl (raises_numericOp _ raises_i64Rem))
      fun _ => id
  | call | asyncCall => exact .callOp fun i _ hi => ⟨by simp, hi⟩
  | tailCall => exact .callOp fun i _ hi => ⟨rfl, hi⟩
  | lt | lte | gt | gte =>
    exact .binaryOp hE (hc rfl) (fun a b => .mono hE (raises_compared a b _)) fun _ => id
  | eq | neq => exact .binaryOp hE (hc rfl) (fun _ _ => Raises.ok _) fun _ => id
  | and | or | xor =>
    exact .binaryOp hE (hc rfl) (fun _ _ => .mono hE (raises_orFault _ _)) fun _ => id
  | shl | shr =>
    exact .binaryOp hE (hc rfl) (fun a b => .mono hE (raises_shifted a b _)) fun _ => id
  | neg | not => exact .unaryOp hE (hc rfl) (fun _ => .mono hE (raises_orFault _ _)) fun _ => id
  | jmp => exact .jump hE fun l hop => .inl ⟨rfl, l, hop, rfl⟩
  | jz | jnz =>
    exact .condJump hE _ (.inr (by simp)) fun l hop => .inr (.inl ⟨by simp, l, hop, rfl⟩)
  | ret => exact .execRet hE fun _ => rfl
  | getIdx => exact .binaryOp hE (hc rfl) (fun a b => .mono hE (raises_getIdx a b)) fun _ => id
  | vecMerge =>
    exact .binaryOp hE (hc rfl) (fun a b => .mono hE (by split <;> simp)) fun _ => id
  | len => exact .unaryOp hE (hc rfl) (fun a => .mono hE (raises_lenOf a)) fun _ => id
  | peek => exact .unaryOp hE (hc rfl) (fun a => .mono hE (raises_peek a)) fun _ => id
  | peekBack => exact .unaryOp hE (hc rfl) (fun a => .mono hE (raises_peekBack a)) fun _ => id
  | await | isSome | unwrap | isOk | unwrapOk | unwrapErr | bitCount =>
    exact .unaryOp hE (hc rfl) (fun a => .mono hE (by split <;> simp)) fun _ => id
  | btreeMin | btreeMax =>
    exact .unaryOp hE (hc rfl) (fun a => .mono hE (raises_onBTree a (by simp))) fun _ => id
  | some_ | ok_ => exact .wrapOp hE (hc rfl) (fun _ => Raises.ok _) fun _ => id
  | err_ =>
    exact .wrapOp hE (hc rfl) (fun a => .mono hE (Raises.map.mpr (raises_asU32 a))) fun _ => id
  | getField | hasField =>
    exact .fieldGet hE (hc rfl) (fun c _ => .mono hE (raises_onStruct c (by simp))) fun _ => id
  | setField => exact .execSetField hE (hc rfl) fun _ => id
  | delField => exact .execDelField hE (hc rfl) fun _ => id
  | cast => exact .execCast hE (hc rfl) fun _ => id
  | push | enqueue | prepend =>
    exact .pushOp hE (hc rfl) (fun c _ => .mono hE (by cases c <;> simp)) fun _ => id
  | setIdx =>
    exact .keyedSet hE (hc rfl)
      (fun c i _ => .mono hE (by cases c <;> simp; split <;> simp)) fun _ => id
  | vecSort => exact .execVecSort hE (hc rfl) host fun _ => id
  | vecFilter => exact .execVecFilter hE (hc rfl) fun _ => id
  | vecSlice => exact .execVecSlice hE (hc rfl) fun _ => id
  | sparseGet | sparseHas =>
    exact .keyedGet hE (hc rfl) (fun c _ => .mono hE (raises_onSparse c (by simp))) fun _ => id
  | sparseSet =>
    exact .keyedSet hE (hc rfl) (fun c _ _ => .mono hE (raises_onSparse c (by simp))) fun _ => id
  | sparseDel =>
    exact .keyedMut hE (hc rfl) (fun c _ => .mono hE (raises_onSparse c (by simp))) fun _ => id
  | btreeGet | btreeHas =>
    exact .keyedGet hE (hc rfl) (fun c _ => .mono hE (raises_onBTree c (by simp))) fun _ => id
  | btreeSet =>
    exact .keyedSet hE (hc rfl) (fun c _ _ => .mono hE (raises_onBTree c (by simp))) fun _ => id
  | btreeDel =>
    exact .keyedMut hE (hc rfl) (fun c _ => .mono hE (raises_onBTree c (by simp))) fun _ => id
  | bitSet_ | bitFlip =>
    exact .keyedMut hE (hc rfl)
      (fun c i => raises_onBitset_partial rfl (fun b => raises_updateGrown b i _) c) fun _ => id
  | bitClr | bitGrow =>
    exact .keyedMut hE (hc rfl) (fun c _ => .mono hE (raises_onBitset c)) fun _ => id
  | bitGet =>
    exact .keyedGet hE (hc rfl) (fun c _ => .mono hE (by cases c <;> simp)) fun _ => id
  | bitAnd | bitOr | bitXor =>
    exact .pushOp hE (hc rfl) (fun c v => .mono hE (raises_onBitsets c v _)) fun _ => id
  | bitvecRead => exact .execBitvecRead hE (hc rfl) fun _ => id
  | bitvecWrite =>
    exact .execBitvecWrite hE (hc rfl)
      (fun c s l x => raises_onBitvec rfl (fun bv => raises_writeBits bv s l x) c) fun _ => id
  | bitvecPush =>
    exact .execBitvecPush hE (hc rfl)
      (fun c l x => raises_onBitvec rfl (fun bv => raises_writeBits bv bv.bitLen l x) c) fun _ => id

/-! ## What an instruction keeps -/

/-- The opcodes that open and close `TMP` frames. -/
def Opcode.setsTmp : Opcode → Bool
  | .tmpBlock | .endTmp => true
  | _ => false

/-- The instruction assigns `$ret` itself. -/
def Instruction.assignsRet (instr : Instruction) : Prop :=
  instr.destination = some (.slot (.builtIn .ret)) ∨ instr.opcode ∈ [.syscall, .asyncSyscall]

section Keep

variable {τ : Type} {keep : View ω → τ} (hk : Unwritten keep)
include hk

theorem OnTop.popOp {E : Stop → Prop} (hE : ∀ s, NoPanic s → E s) {instr : Instruction}
    (hret : instr.operands[1]? = some (.slot (.builtIn .ret)) → RetUnwritten keep)
    {f : Value → Except Stop (Value × Value)} (hf : ∀ c, Raises E (f c)) :
    Focused View.plug keep E (popOp instr f : ExecM ω Action) := by
  refine .bind (reads (.const ((raises_getOp _ _).mono hE))) fun op =>
    .bind (writeTargetMut hk hE op hf) fun v => ?_
  have hput : Simple E (fun _ => True) (instr.operands[1]? = some ·) (fun _ => False)
      ((liftM (instr.getOp 1) : ExecM ω Operand) >>= fun op =>
        Fasm.writeVal op v >>= fun _ => pure .continue_) := .put hE trivial (fun _ => id) v
  exact hput.focused hk (fun op hop hop' => hret (hop' ▸ hop)) hE

theorem OnTop.syscallOp {E : Stop → Prop} (hE : ∀ s, NoPanic s → E s) (hret : RetUnwritten keep)
    (instr : Instruction) (host : Host ω) (wrap : Value → Value) :
    Focused View.plug keep E (syscallOp instr host wrap) := by
  have hlift {α : Type} {x : Except Stop α} (hx : Raises NoPanic x) :
      Focused View.plug keep E (liftM x : ExecM ω α) := reads (.const (hx.mono hE))
  refine .bind (hlift (raises_getOp _ _)) fun op => .bind (hlift (raises_syscallId op)) fun _ =>
    .bind (hlift (raises_getOp _ _)) fun op₁ =>
    .bind ((reads (readable_readOperand op₁)).mono hE) fun args =>
    .bind (hlift (raises_orFault _ _)) fun handler =>
    .bind (callSyscall hk hE handler args) fun r => .bind ?_ fun _ => .pure _
  exact assignLast fun cf g w => hret ⟨cf, g, w⟩ (wrap r)

/-- Opcodes that neither set the guard nor the `TMP` frames run on the top frame and keep
what slots are no part of. -/
theorem executeInstruction_keeps (host : Host ω) (p : Program) {instr : Instruction}
    (hguard : instr.opcode.setsGuard = false) (htmp : instr.opcode.setsTmp = false)
    (hret : instr.assignsRet → RetUnwritten keep) :
    Focused View.plug keep (Stop.allowed instr.opcode) (executeInstruction host p instr) := by
  have hE : ∀ s, NoPanic s → Stop.allowed instr.opcode s := Stop.allowed_of_noPanic
  by_cases h : instr.opcode.isSimple = true
  · exact (executeInstruction_simple host p h).focused hk
      (fun op hop hop' => hret (.inl (hop' ▸ hop))) hE
  obtain ⟨op, operands⟩ := instr
  cases op with
  | pop | dequeue | popBack =>
    exact OnTop.popOp hk hE (fun h => hret (.inl h)) fun c => .mono hE (by cases c <;> simp)
  | syscall | asyncSyscall =>
    exact OnTop.syscallOp hk hE (hret (.inr (by simp))) _ host _
  | tmpBlock | endTmp => cases htmp
  | try_ | catch_ | endTry => cases hguard
  | _ => exact absurd rfl h

end Keep

/-- Except at `TRY`, `CATCH` and `ENDTRY`, an instruction runs on the top frame and does
not touch its guard. -/
theorem executeInstruction_onTop (host : Host ω) (p : Program) {instr : Instruction}
    (h : instr.opcode.setsGuard = false) :
    OnTop (Stop.allowed instr.opcode) (executeInstruction host p instr) := by
  by_cases htmp : instr.opcode.setsTmp = false
  · exact executeInstruction_keeps unwritten_guarded host p h htmp fun _ _ _ => rfl
  have hE : ∀ s, NoPanic s → Stop.allowed instr.opcode s := Stop.allowed_of_noPanic
  obtain ⟨op, operands⟩ := instr
  cases op with
  | tmpBlock => exact .bind (OnTop.assignLast fun _ _ _ => rfl) fun _ => .pure _
  | endTmp =>
    refine .bind (.mono hE (OnTop.onLast (fun cf => ?_) fun cf _ cf' h g w => ?_)) fun _ => .pure _
    · split <;> simp
    · split at h <;> cases h
      rfl
  | _ => exact absurd rfl htmp

/-- What an instruction can return. -/
theorem executeInstruction_yields (host : Host ω) (p : Program) (instr : Instruction) :
    Returns (instr.Yields p) (executeInstruction host p instr) := by
  by_cases h : instr.opcode.isSimple = true
  · exact (executeInstruction_simple host p h).returns
  obtain ⟨op, operands⟩ := instr
  have hc : op.isControl = false → Instruction.Yields p ⟨op, operands⟩ .continue_ := .inl
  cases op with
  | tmpBlock | endTmp | endTry => exact .bind fun _ => .pure (hc rfl)
  | try_ => exact .bind fun _ => .bind fun _ => .bind fun _ => .bind fun _ => .pure (hc rfl)
  | catch_ => exact .bind fun _ => .bind fun _ => .pure (.inr (.inr rfl))
  | pop | dequeue | popBack =>
    exact .bind fun _ => .bind fun _ => .bind fun _ => .bind fun _ => .pure (hc rfl)
  | syscall | asyncSyscall =>
    exact .bind fun _ => .bind fun _ => .bind fun _ => .bind fun _ => .bind fun _ =>
      .bind fun _ => .bind fun _ => .pure (hc rfl)
  | _ => exact absurd rfl h

end Fasm
