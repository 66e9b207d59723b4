import Fasm.Vm.Footprint

/-!
# The types of results

A slot has no type of its own: an instruction puts into its target whatever value it
makes.  The variant of that value is fixed by the opcode, or it is that of an operand,
or that of an element that the instruction takes out of an operand.  An update in
place does not change the variant of the collection.
-/

namespace Fasm

open ExecM

variable {ω : Type}

/-- The type whose variant a value is. -/
def Value.fasmType : Value → FasmType
  | .null => .null
  | .bool _ => .bool
  | .int t _ => .int t
  | .float32 _ => .float32
  | .float64 _ => .float64
  | .refMut _ _ => .refMut
  | .refImm _ _ => .refImm
  | .vec _ => .vec
  | .struct _ => .struct
  | .stack _ => .stack
  | .queue _ => .queue
  | .heapMin _ => .heapMin
  | .heapMax _ => .heapMax
  | .sparse _ => .sparse
  | .btree _ => .btree
  | .slice _ => .slice
  | .deque _ => .deque
  | .bitset _ => .bitset
  | .bitvec _ => .bitvec
  | .option _ => .option
  | .result _ => .result
  | .future _ => .future

@[simp] theorem fasmType_defaultForType (t : FasmType) : (defaultForType t).fasmType = t := by
  cases t <;> rfl

/-! ## What an instruction makes -/

/-- `x` is the element that the instruction takes out of the value of its operand 0. -/
def Instruction.Takes (instr : Instruction) (v : View ω) (x : Value) : Prop :=
  match instr.opcode with
  | .await => ∃ c, v.Reads instr 0 c ∧
    (c = .future (some x) ∨ (∀ y, c ≠ .future (some y)) ∧ x = .null)
  | .peek => ∃ c, v.Reads instr 0 c ∧ peek c = .ok x
  | .peekBack => ∃ c, v.Reads instr 0 c ∧ peekBack c = .ok x
  | .pop => ∃ l, v.Reads instr 0 (.stack l) ∧ l.getLast? = some x
  | .dequeue => ∃ l, (v.Reads instr 0 (.queue l) ∨ v.Reads instr 0 (.deque l)) ∧ l.head? = some x
  | .popBack => ∃ l, v.Reads instr 0 (.deque l) ∧ l.getLast? = some x
  | .getIdx => ∃ c i, v.Reads instr 0 c ∧ v.Reads instr 1 i ∧ getIdx c i = .ok x
  | .getField => ∃ l op key, v.Reads instr 0 (.struct l) ∧ instr.operands[1]? = some op ∧
    (v.plug []).readKeyOperand op = .ok key ∧ FasmStruct.get l key = some x
  | .unwrap => v.Reads instr 0 (.option (some x))
  | .unwrapOk => v.Reads instr 0 (.result (.ok x))
  | .sparseGet => ∃ l k key, v.Reads instr 0 (.sparse l) ∧ v.Reads instr 1 k ∧
    asU32 k = .ok key ∧ FasmMap.get l key = some x
  | .btreeGet => ∃ l k key, v.Reads instr 0 (.btree l) ∧ v.Reads instr 1 k ∧
    asU32 k = .ok key ∧ FasmMap.get l key = some x
  | _ => False

/-- Run on `v`, the instruction makes a value of the type `t` for its target. -/
def Instruction.Makes (instr : Instruction) (v : View ω) (t : FasmType) : Prop :=
  match instr.opcode with
  | .mov | .store | .add | .sub | .mul | .div | .mod | .neg | .and | .or | .xor | .not | .shl
  | .shr => ∃ x, v.Reads instr 0 x ∧ t = x.fasmType
  | .addr => t = .refMut
  | .eq | .neq | .lt | .lte | .gt | .gte | .hasField | .isSome | .isOk | .sparseHas | .btreeHas
  | .bitGet => t = .bool
  | .len | .unwrapErr | .btreeMin | .btreeMax | .bitCount => t = .int .uint32
  | .bitvecRead => t = .int .uint64
  | .some_ => t = .option
  | .ok_ | .err_ => t = .result
  | .vecFilter | .vecMerge => t = .vec
  | .vecSlice => t = .slice
  | .cast => instr.operands[1]? = some (.type t)
  | .reserve => ∃ t' init, instr.operands[1]? = some (.type t') ∧
    instr.operands[2]? = some init ∧ t = (immToValueForType t' init).fasmType
  | _ => ∃ x, instr.Takes v x ∧ t = x.fasmType

/-! ### Types of operations -/

section Operations

variable {a b r : Value}

theorem orPanic_eq_ok {α : Type} {x : Except Panic α} {y : α} (h : orPanic x = .ok y) :
    x = .ok y := by
  cases x with
  | ok z => cases h; rfl
  | error e => cases h

theorem fasmType_checked {f : Value → Value → Except Panic (Option Value)}
    (hf : ∀ a b r, f a b = .ok (some r) → r.fasmType = a.fasmType) (h : checked f a b = .ok r) :
    r.fasmType = a.fasmType := by
  obtain ⟨o, ho, h⟩ := bind_eq_ok h
  rw [orFault_eq_ok.mp h] at ho
  exact hf a b r (orPanic_eq_ok ho)

theorem fasmType_divChecked {f : Value → Value → Except Panic (Option Value)}
    (hf : ∀ a b r, f a b = .ok (some r) → r.fasmType = a.fasmType)
    (h : divChecked f a b = .ok r) : r.fasmType = a.fasmType := by
  unfold divChecked at h
  split at h
  · exact fasmType_checked hf h
  · cases h

theorem fasmType_numericOp (f : U64 → U64 → Except Panic U64) (g : U64 → U64 → U64)
    (a b r : Value) (h : numericOp f g a b = .ok (some r)) : r.fasmType = a.fasmType := by
  unfold numericOp at h
  split at h
  · split at h
    · obtain ⟨n, -, h⟩ := bind_eq_ok h
      cases h
      rfl
    · cases h
  · cases h; rfl
  · cases h; rfl
  · cases h

theorem fasmType_bitwiseOp {f : U64 → U64 → U64} (h : bitwiseOp f a b = some r) :
    r.fasmType = a.fasmType := by
  unfold bitwiseOp at h
  split at h
  · split at h <;> cases h
    rfl
  · cases h

theorem fasmType_neg (h : a.neg = some r) : r.fasmType = a.fasmType := by
  unfold Value.neg at h
  split at h
  · split at h <;> cases h
    rfl
  · cases h; rfl
  · cases h; rfl
  · cases h

theorem fasmType_bitNot (h : a.bitNot = some r) : r.fasmType = a.fasmType := by
  unfold Value.bitNot at h
  split at h <;> cases h
  rfl

theorem fasmType_shl {n : U32} (h : a.shl n = some r) : r.fasmType = a.fasmType := by
  unfold Value.shl at h
  split at h
  · split at h <;> cases h
    rfl
  · cases h

theorem fasmType_shr {n : U32} (h : a.shr n = some r) : r.fasmType = a.fasmType := by
  unfold Value.shr at h
  split at h
  · split at h <;> cases h
    rfl
  · cases h

theorem fasmType_shifted {f : Value → U32 → Option Value}
    (hf : ∀ n, f a n = some r → r.fasmType = a.fasmType) (h : shifted f a b = .ok r) :
    r.fasmType = a.fasmType := by
  obtain ⟨n, -, h⟩ := bind_eq_ok h
  exact hf n (orFault_eq_ok.mp h)

theorem fasmType_compared {f : Value → Value → Option Bool} (h : compared f a b = .ok r) :
    r.fasmType = .bool := by
  obtain ⟨c, -, rfl⟩ := map_eq_ok h
  rfl

theorem fasmType_castValue {t : FasmType} (h : castValue a t = .ok r) : r.fasmType = t := by
  unfold castValue at h
  split at h
  · obtain ⟨n, -, rfl⟩ := Option.map_eq_some_iff.mp (orFault_eq_ok.mp h)
    rfl
  · obtain ⟨n, -, rfl⟩ := Option.map_eq_some_iff.mp (orFault_eq_ok.mp h)
    rfl
  · obtain ⟨n, -, rfl⟩ := Option.map_eq_some_iff.mp (orFault_eq_ok.mp h)
    rfl
  · obtain ⟨n, -, rfl⟩ := Option.map_eq_some_iff.mp (orFault_eq_ok.mp h)
    rfl
  · cases h

theorem fasmType_lenOf (h : lenOf a = .ok r) : r.fasmType = .int .uint32 := by
  cases a <;> cases h <;> rfl

/-- An operation on a collection of one kind. -/
theorem onStruct_eq_ok {α : Type} {f : List (U32 × Value) → Except Stop α} {y : α}
    (h : onStruct a f = .ok y) : ∃ l, a = .struct l ∧ f l = .ok y := by
  cases a with
  | struct l => exact ⟨l, rfl, h⟩
  | _ => cases h

theorem onSparse_eq_ok {α : Type} {f : List (U32 × Value) → Except Stop α} {y : α}
    (h : onSparse a f = .ok y) : ∃ l, a = .sparse l ∧ f l = .ok y := by
  cases a with
  | sparse l => exact ⟨l, rfl, h⟩
  | _ => cases h

theorem onBTree_eq_ok {α : Type} {f : List (U32 × Value) → Except Stop α} {y : α}
    (h : onBTree a f = .ok y) : ∃ l, a = .btree l ∧ f l = .ok y := by
  cases a with
  | btree l => exact ⟨l, rfl, h⟩
  | _ => cases h

theorem onBitset_eq_ok {f : FasmBitset → Except Panic FasmBitset} (h : onBitset a f = .ok r) :
    r.fasmType = a.fasmType := by
  cases a with
  | bitset b =>
    obtain ⟨c, -, rfl⟩ := map_eq_ok h
    rfl
  | _ => cases h

theorem onBitvec_eq_ok {f : FasmBitvec → Except Panic FasmBitvec} (h : onBitvec a f = .ok r) :
    r.fasmType = a.fasmType := by
  cases a with
  | bitvec b =>
    obtain ⟨c, -, rfl⟩ := map_eq_ok h
    rfl
  | _ => cases h

theorem onBitsets_eq_ok {f : FasmBitset → FasmBitset → FasmBitset}
    (h : onBitsets f a b = .ok r) : r.fasmType = a.fasmType := by
  unfold onBitsets at h
  split at h <;> cases h
  rfl

end Operations

/-! ### Results -/

namespace View

variable {host : Host ω} {p : Program} {instr : Instruction} {v w : View ω} {act : Action}
  {operands : List Operand}

section Families

variable (h : v.exec host p instr = .ok act w)
include h

theorem exec_wrapOp {f : Value → Except Stop Value}
    (hop : executeInstruction host p instr = wrapOp instr f) :
    ∃ a r, v.Reads instr 1 a ∧ f a = .ok r ∧ v.Writes instr 0 r w := by
  have hrun := exec_run h
  rw [hop] at hrun
  obtain ⟨op₁, h₁, hrun⟩ := getOp_bind_eq_ok hrun
  obtain ⟨a, ha, hrun⟩ := reads_bind_eq_ok hrun
  obtain ⟨r, hr, hrun⟩ := lift_bind_eq_ok hrun
  exact ⟨a, r, ⟨op₁, h₁, ha⟩, hr, (writes_of_run hrun rfl).2⟩

/-- An operation on a struct and a key. -/
theorem exec_fieldGet {f : List (U32 × Value) → U32 → Except Stop Value}
    (hop : executeInstruction host p instr = fieldGet instr f) :
    ∃ l op key r, v.Reads instr 0 (.struct l) ∧ instr.operands[1]? = some op ∧
      (v.plug []).readKeyOperand op = .ok key ∧ f l key = .ok r ∧ v.Writes instr 2 r w := by
  have hrun := exec_run h
  rw [hop] at hrun
  obtain ⟨op₁, h₁, hrun⟩ := getOp_bind_eq_ok hrun
  obtain ⟨key, hkey, hrun⟩ := reads_bind_eq_ok hrun
  obtain ⟨op₀, h₀, hrun⟩ := getOp_bind_eq_ok hrun
  obtain ⟨c, hc, hrun⟩ := reads_bind_eq_ok hrun
  obtain ⟨r, hr, hrun⟩ := lift_bind_eq_ok hrun
  have hw := (writes_of_run hrun rfl).2
  obtain ⟨l, rfl, hf⟩ := onStruct_eq_ok hr
  exact ⟨l, op₁, key, r, ⟨op₀, h₀, hc⟩, h₁, hkey, hf, hw⟩

/-- An operation on a collection and a key. -/
theorem exec_keyedGet {f : Value → U32 → Except Stop Value}
    (hop : executeInstruction host p instr = keyedGet instr f) :
    ∃ c k key r, v.Reads instr 0 c ∧ v.Reads instr 1 k ∧ asU32 k = .ok key ∧ f c key = .ok r ∧
      v.Writes instr 2 r w := by
  have hrun := exec_run h
  rw [hop] at hrun
  obtain ⟨op₁, h₁, hrun⟩ := getOp_bind_eq_ok hrun
  obtain ⟨k, hk, hrun⟩ := reads_bind_eq_ok hrun
  obtain ⟨key, hkey, hrun⟩ := lift_bind_eq_ok hrun
  obtain ⟨op₀, h₀, hrun⟩ := getOp_bind_eq_ok hrun
  obtain ⟨c, hc, hrun⟩ := reads_bind_eq_ok hrun
  obtain ⟨r, hr, hrun⟩ := lift_bind_eq_ok hrun
  exact ⟨c, k, key, r, ⟨op₀, h₀, hc⟩, ⟨op₁, h₁, hk⟩, hkey, hr, (writes_of_run hrun rfl).2⟩

/-! What a family writes is made, if what its operation returns is. -/

theorem makes_binaryOp {f : Value → Value → Except Stop Value}
    (hop : executeInstruction host p instr = binaryOp instr f)
    (hf : ∀ a b r, v.Reads instr 0 a → v.Reads instr 1 b → f a b = .ok r →
      instr.Makes v r.fasmType) : ∃ x, v.Writes instr 2 x w ∧ instr.Makes v x.fasmType := by
  obtain ⟨-, a, b, r, ha, hb, hr, hw⟩ := exec_binaryOp h hop
  exact ⟨r, hw, hf a b r ha hb hr⟩

theorem makes_unaryOp {f : Value → Except Stop Value}
    (hop : executeInstruction host p instr = unaryOp instr f)
    (hf : ∀ a r, v.Reads instr 0 a → f a = .ok r → instr.Makes v r.fasmType) :
    ∃ x, v.Writes instr 1 x w ∧ instr.Makes v x.fasmType := by
  obtain ⟨-, a, r, ha, hr, hw⟩ := exec_unaryOp h hop
  exact ⟨r, hw, hf a r ha hr⟩

theorem makes_wrapOp {f : Value → Except Stop Value}
    (hop : executeInstruction host p instr = wrapOp instr f)
    (hf : ∀ a r, f a = .ok r → instr.Makes v r.fasmType) :
    ∃ x, v.Writes instr 0 x w ∧ instr.Makes v x.fasmType := by
  obtain ⟨a, r, -, hr, hw⟩ := exec_wrapOp h hop
  exact ⟨r, hw, hf a r hr⟩

theorem makes_keyedGet {f : Value → U32 → Except Stop Value}
    (hop : executeInstruction host p instr = keyedGet instr f)
    (hf : ∀ c k key r, v.Reads instr 0 c → v.Reads instr 1 k → asU32 k = .ok key →
      f c key = .ok r → instr.Makes v r.fasmType) :
    ∃ x, v.Writes instr 2 x w ∧ instr.Makes v x.fasmType := by
  obtain ⟨c, k, key, r, hc, hk, hkey, hr, hw⟩ := exec_keyedGet h hop
  exact ⟨r, hw, hf c k key r hc hk hkey hr⟩

end Families

/-- What `STORE` reads is what any other instruction would. -/
theorem immOperand_eq (e : Executor ω) (op : Operand) : e.immOperand op = e.readOperand op := by
  cases op <;> rfl

theorem exec_store_reads (h : v.exec host p ⟨.store, operands⟩ = .ok act w) :
    ∃ a, v.Reads ⟨.store, operands⟩ 0 a ∧ v.Writes ⟨.store, operands⟩ 1 a w := by
  obtain ⟨op₀, h₀, hrun⟩ := getOp_bind_eq_ok (exec_run h)
  obtain ⟨a, ha, hrun⟩ := reads_bind_eq_ok hrun
  rw [immOperand_eq] at ha
  exact ⟨a, ⟨op₀, h₀, ha⟩, (writes_of_run hrun rfl).2⟩

theorem exec_reserve (h : v.exec host p ⟨.reserve, operands⟩ = .ok act w) :
    ∃ t init, operands[1]? = some (.type t) ∧ operands[2]? = some init ∧
      v.Writes ⟨.reserve, operands⟩ 0 (immToValueForType t init) w := by
  obtain ⟨op₀, h₀, hrun⟩ := getOp_bind_eq_ok (exec_run h)
  obtain ⟨op₁, h₁, hrun⟩ := getOp_bind_eq_ok hrun
  obtain ⟨op₂, h₂, hrun⟩ := getOp_bind_eq_ok hrun
  cases op₁ with
  | type t =>
    obtain ⟨u, e₁, hw, hrun⟩ := bind_run_eq_ok hrun
    cases hrun
    exact ⟨t, op₂, h₁, h₂, op₀, h₀, hw⟩
  | _ => cases hrun

theorem exec_addr (h : v.exec host p ⟨.addr, operands⟩ = .ok act w) :
    ∃ g idx, v.Writes ⟨.addr, operands⟩ 1 (.refMut g idx) w := by
  obtain ⟨op₀, h₀, hrun⟩ := getOp_bind_eq_ok (exec_run h)
  exact ⟨_, _, (writes_of_run hrun rfl).2⟩

theorem exec_vecFilter (h : v.exec host p ⟨.vecFilter, operands⟩ = .ok act w) :
    ∃ l, v.Writes ⟨.vecFilter, operands⟩ 3 (.vec l) w := by
  obtain ⟨op₀, h₀, hrun⟩ := getOp_bind_eq_ok (exec_run h)
  obtain ⟨src, hsrc, hrun⟩ := reads_bind_eq_ok hrun
  obtain ⟨op₁, h₁, hrun⟩ := getOp_bind_eq_ok hrun
  obtain ⟨b, hb, hrun⟩ := reads_bind_eq_ok hrun
  obtain ⟨n, hn, hrun⟩ := lift_bind_eq_ok hrun
  obtain ⟨op₂, h₂, hrun⟩ := getOp_bind_eq_ok hrun
  obtain ⟨c, hc, hrun⟩ := reads_bind_eq_ok hrun
  cases src with
  | vec l => exact ⟨_, (writes_of_run hrun rfl).2⟩
  | _ => cases hrun

theorem exec_vecSlice (h : v.exec host p ⟨.vecSlice, operands⟩ = .ok act w) :
    ∃ l, v.Writes ⟨.vecSlice, operands⟩ 3 (.slice l) w := by
  obtain ⟨op₀, h₀, hrun⟩ := getOp_bind_eq_ok (exec_run h)
  obtain ⟨src, hsrc, hrun⟩ := reads_bind_eq_ok hrun
  obtain ⟨op₁, h₁, hrun⟩ := getOp_bind_eq_ok hrun
  obtain ⟨b, hb, hrun⟩ := reads_bind_eq_ok hrun
  obtain ⟨n, hn, hrun⟩ := lift_bind_eq_ok hrun
  obtain ⟨op₂, h₂, hrun⟩ := getOp_bind_eq_ok hrun
  obtain ⟨c, hc, hrun⟩ := reads_bind_eq_ok hrun
  obtain ⟨m, hm, hrun⟩ := lift_bind_eq_ok hrun
  cases src with
  | vec l => exact ⟨_, (writes_of_run hrun rfl).2⟩
  | _ => cases hrun

theorem exec_bitvecRead (h : v.exec host p ⟨.bitvecRead, operands⟩ = .ok act w) :
    ∃ n, v.Writes ⟨.bitvecRead, operands⟩ 3 (.uint64 n) w := by
  obtain ⟨op₁, h₁, hrun⟩ := getOp_bind_eq_ok (exec_run h)
  obtain ⟨b, hb, hrun⟩ := reads_bind_eq_ok hrun
  obtain ⟨start, hstart, hrun⟩ := lift_bind_eq_ok hrun
  obtain ⟨op₂, h₂, hrun⟩ := getOp_bind_eq_ok hrun
  obtain ⟨c, hc, hrun⟩ := reads_bind_eq_ok hrun
  obtain ⟨len, hlen, hrun⟩ := lift_bind_eq_ok hrun
  obtain ⟨op₀, h₀, hrun⟩ := getOp_bind_eq_ok hrun
  obtain ⟨src, hsrc, hrun⟩ := reads_bind_eq_ok hrun
  cases src with
  | bitvec bv => exact ⟨_, (writes_of_run hrun rfl).2⟩
  | _ => cases hrun

/-! ### The opcodes of a kind -/

section Kinds

variable (h : v.exec host p instr = .ok act w) {n : Nat} (hn : instr.opcode.resultIndex = some n)
include h hn

theorem makes_memory (hkind : instr.opcode.kind = .memory) :
    ∃ x, v.Writes instr n x w ∧ instr.Makes v x.fasmType := by
  obtain ⟨op, operands⟩ := instr
  cases op with
  | reserve =>
    cases hn
    obtain ⟨t, init, h₁, h₂, hw⟩ := exec_reserve h
    exact ⟨_, hw, t, init, h₁, h₂, rfl⟩
  | release => cases hn
  | _ => cases hkind

theorem makes_movement (hkind : instr.opcode.kind = .movement) :
    ∃ x, v.Writes instr n x w ∧ instr.Makes v x.fasmType := by
  obtain ⟨op, operands⟩ := instr
  cases op with
  | mov =>
    cases hn
    obtain ⟨-, a, ha, hw⟩ := exec_mov h
    exact ⟨a, hw, a, ha, rfl⟩
  | store =>
    cases hn
    obtain ⟨a, ha, hw⟩ := exec_store_reads h
    exact ⟨a, hw, a, ha, rfl⟩
  | addr =>
    cases hn
    obtain ⟨g, idx, hw⟩ := exec_addr h
    exact ⟨_, hw, rfl⟩
  | _ => cases hkind

theorem makes_arithmetic (hkind : instr.opcode.kind = .arithmetic) :
    ∃ x, v.Writes instr n x w ∧ instr.Makes v x.fasmType := by
  obtain ⟨op, operands⟩ := instr
  cases op with
  | add | sub | mul =>
    cases hn
    refine makes_binaryOp h rfl fun a b r ha _ hr => ⟨a, ha, ?_⟩
    exact fasmType_checked (fasmType_numericOp _ _) hr
  | div | mod =>
    cases hn
    refine makes_binaryOp h rfl fun a b r ha _ hr => ⟨a, ha, ?_⟩
    exact fasmType_divChecked (fasmType_numericOp _ _) hr
  | neg =>
    cases hn
    exact makes_unaryOp h rfl fun a r ha hr => ⟨a, ha, fasmType_neg (orFault_eq_ok.mp hr)⟩
  | _ => cases hkind

theorem makes_comparison (hkind : instr.opcode.kind = .comparison) :
    ∃ x, v.Writes instr n x w ∧ instr.Makes v x.fasmType := by
  obtain ⟨op, operands⟩ := instr
  cases op with
  | eq | neq =>
    cases hn
    refine makes_binaryOp h rfl fun a b r _ _ hr => ?_
    cases hr
    rfl
  | lt | lte | gt | gte =>
    cases hn
    exact makes_binaryOp h rfl fun a b r _ _ hr => fasmType_compared hr
  | _ => cases hkind

theorem makes_bitwise (hkind : instr.opcode.kind = .bitwise) :
    ∃ x, v.Writes instr n x w ∧ instr.Makes v x.fasmType := by
  obtain ⟨op, operands⟩ := instr
  cases op with
  | and | or | xor =>
    cases hn
    refine makes_binaryOp h rfl fun a b r ha _ hr => ⟨a, ha, ?_⟩
    exact fasmType_bitwiseOp (orFault_eq_ok.mp hr)
  | shl =>
    cases hn
    refine makes_binaryOp h rfl fun a b r ha _ hr => ⟨a, ha, ?_⟩
    exact fasmType_shifted (fun _ => fasmType_shl) hr
  | shr =>
    cases hn
    refine makes_binaryOp h rfl fun a b r ha _ hr => ⟨a, ha, ?_⟩
    exact fasmType_shifted (fun _ => fasmType_shr) hr
  | not =>
    cases hn
    exact makes_unaryOp h rfl fun a r ha hr => ⟨a, ha, fasmType_bitNot (orFault_eq_ok.mp hr)⟩
  | _ => cases hkind

theorem makes_controlFlow (hkind : instr.opcode.kind = .controlFlow) :
    ∃ x, v.Writes instr n x w ∧ instr.Makes v x.fasmType := by
  obtain ⟨op, operands⟩ := instr
  cases op with
  | await =>
    cases hn
    refine makes_unaryOp h rfl fun a r ha hr => ⟨r, ⟨a, ha, ?_⟩, rfl⟩
    split at hr
    case h_1 => cases hr; exact .inl rfl
    case h_2 hno => cases hr; exact .inr ⟨hno, rfl⟩
  | jmp | jz | jnz | call | asyncCall | ret | tailCall | tmpBlock | endTmp => cases hn
  | _ => cases hkind

theorem makes_collections (hkind : instr.opcode.kind = .collections)
    (htake : instr.opcode.takesOut = false) :
    ∃ x, v.Writes instr n x w ∧ instr.Makes v x.fasmType := by
  obtain ⟨op, operands⟩ := instr
  cases op with
  | getIdx =>
    cases hn
    exact makes_binaryOp h rfl fun a b r ha hb hr => ⟨r, ⟨a, b, ha, hb, hr⟩, rfl⟩
  | len =>
    cases hn
    exact makes_unaryOp h rfl fun a r _ hr => fasmType_lenOf hr
  | peek | peekBack =>
    cases hn
    exact makes_unaryOp h rfl fun a r ha hr => ⟨r, ⟨a, ha, hr⟩, rfl⟩
  | getField =>
    cases hn
    obtain ⟨l, op, key, r, hl, h₁, hkey, hr, hw⟩ := exec_fieldGet h rfl
    exact ⟨r, hw, r, ⟨l, op, key, hl, h₁, hkey, orFault_eq_ok.mp hr⟩, rfl⟩
  | hasField =>
    cases hn
    obtain ⟨l, op, key, r, -, -, -, hr, hw⟩ := exec_fieldGet h rfl
    cases hr
    exact ⟨_, hw, rfl⟩
  | pop | dequeue | popBack => cases htake
  | push | enqueue | setIdx | setField | delField | prepend => cases hn
  | _ => cases hkind

theorem makes_wrappers (hkind : instr.opcode.kind = .wrappers) :
    ∃ x, v.Writes instr n x w ∧ instr.Makes v x.fasmType := by
  obtain ⟨op, operands⟩ := instr
  cases op with
  | isSome | isOk =>
    cases hn
    refine makes_unaryOp h rfl fun a r _ hr => ?_
    split at hr <;> cases hr <;> rfl
  | unwrap =>
    cases hn
    refine makes_unaryOp h rfl fun a r ha hr => ?_
    split at hr
    · cases orFault_eq_ok.mp hr
      exact ⟨r, ha, rfl⟩
    · cases hr
  | unwrapOk =>
    cases hn
    refine makes_unaryOp h rfl fun a r ha hr => ?_
    split at hr <;> cases hr
    exact ⟨r, ha, rfl⟩
  | unwrapErr =>
    cases hn
    refine makes_unaryOp h rfl fun a r _ hr => ?_
    split at hr <;> cases hr
    rfl
  | some_ | ok_ =>
    cases hn
    refine makes_wrapOp h rfl fun a r hr => ?_
    cases hr
    rfl
  | err_ =>
    cases hn
    refine makes_wrapOp h rfl fun a r hr => ?_
    obtain ⟨k, -, rfl⟩ := map_eq_ok hr
    rfl
  | _ => cases hkind

theorem makes_conversion (hkind : instr.opcode.kind = .conversion) :
    ∃ x, v.Writes instr n x w ∧ instr.Makes v x.fasmType := by
  obtain ⟨op, operands⟩ := instr
  cases op with
  | cast =>
    cases hn
    obtain ⟨-, a, t, r, -, ht, hr, hw⟩ := exec_cast h
    exact ⟨r, hw, fasmType_castValue hr ▸ ht⟩
  | _ => cases hkind

theorem makes_vec (hkind : instr.opcode.kind = .vec) :
    ∃ x, v.Writes instr n x w ∧ instr.Makes v x.fasmType := by
  obtain ⟨op, operands⟩ := instr
  cases op with
  | vecMerge =>
    cases hn
    refine makes_binaryOp h rfl fun a b r _ _ hr => ?_
    split at hr <;> cases hr
    rfl
  | vecFilter =>
    cases hn
    obtain ⟨l, hw⟩ := exec_vecFilter h
    exact ⟨_, hw, rfl⟩
  | vecSlice =>
    cases hn
    obtain ⟨l, hw⟩ := exec_vecSlice h
    exact ⟨_, hw, rfl⟩
  | vecSort => cases hn
  | _ => cases hkind

theorem makes_sparse (hkind : instr.opcode.kind = .sparse) :
    ∃ x, v.Writes instr n x w ∧ instr.Makes v x.fasmType := by
  obtain ⟨op, operands⟩ := instr
  cases op with
  | sparseGet =>
    cases hn
    refine makes_keyedGet h rfl fun c k key r hc hk hkey hr => ?_
    obtain ⟨l, rfl, hf⟩ := onSparse_eq_ok hr
    exact ⟨r, ⟨l, k, key, hc, hk, hkey, orFault_eq_ok.mp hf⟩, rfl⟩
  | sparseHas =>
    cases hn
    refine makes_keyedGet h rfl fun c k key r _ _ _ hr => ?_
    obtain ⟨l, -, hf⟩ := onSparse_eq_ok hr
    cases hf
    rfl
  | sparseSet | sparseDel => cases hn
  | _ => cases hkind

theorem makes_btree (hkind : instr.opcode.kind = .btree) :
    ∃ x, v.Writes instr n x w ∧ instr.Makes v x.fasmType := by
  obtain ⟨op, operands⟩ := instr
  cases op with
  | btreeMin | btreeMax =>
    cases hn
    refine makes_unaryOp h rfl fun a r _ hr => ?_
    obtain ⟨l, -, hf⟩ := onBTree_eq_ok hr
    obtain ⟨k, -, rfl⟩ := map_eq_ok hf
    rfl
  | btreeGet =>
    cases hn
    refine makes_keyedGet h rfl fun c k key r hc hk hkey hr => ?_
    obtain ⟨l, rfl, hf⟩ := onBTree_eq_ok hr
    exact ⟨r, ⟨l, k, key, hc, hk, hkey, orFault_eq_ok.mp hf⟩, rfl⟩
  | btreeHas =>
    cases hn
    refine makes_keyedGet h rfl fun c k key r _ _ _ hr => ?_
    obtain ⟨l, -, hf⟩ := onBTree_eq_ok hr
    cases hf
    rfl
  | btreeSet | btreeDel => cases hn
  | _ => cases hkind

theorem makes_bitset (hkind : instr.opcode.kind = .bitset) :
    ∃ x, v.Writes instr n x w ∧ instr.Makes v x.fasmType := by
  obtain ⟨op, operands⟩ := instr
  cases op with
  | bitCount =>
    cases hn
    refine makes_unaryOp h rfl fun a r _ hr => ?_
    split at hr <;> cases hr
    rfl
  | bitGet =>
    cases hn
    refine makes_keyedGet h rfl fun c k key r _ _ _ hr => ?_
    split at hr <;> cases hr
    rfl
  | bitSet_ | bitClr | bitFlip | bitAnd | bitOr | bitXor | bitGrow => cases hn
  | _ => cases hkind

theorem makes_bitvec (hkind : instr.opcode.kind = .bitvec) :
    ∃ x, v.Writes instr n x w ∧ instr.Makes v x.fasmType := by
  obtain ⟨op, operands⟩ := instr
  cases op with
  | bitvecRead =>
    cases hn
    obtain ⟨m, hw⟩ := exec_bitvecRead h
    exact ⟨_, hw, rfl⟩
  | bitvecWrite | bitvecPush => cases hn
  | _ => cases hkind

end Kinds

/-- An instruction that writes a result writes a value of a type that it makes. -/
theorem exec_makes (h : v.exec host p instr = .ok act w) {n : Nat}
    (hn : instr.opcode.resultIndex = some n) (htake : instr.opcode.takesOut = false) :
    ∃ x, v.Writes instr n x w ∧ instr.Makes v x.fasmType := by
  cases hkind : instr.opcode.kind with
  | memory => exact makes_memory h hn hkind
  | movement => exact makes_movement h hn hkind
  | arithmetic => exact makes_arithmetic h hn hkind
  | comparison => exact makes_comparison h hn hkind
  | bitwise => exact makes_bitwise h hn hkind
  | controlFlow => exact makes_controlFlow h hn hkind
  | collections => exact makes_collections h hn hkind htake
  | wrappers => exact makes_wrappers h hn hkind
  | conversion => exact makes_conversion h hn hkind
  | vec => exact makes_vec h hn hkind
  | sparse => exact makes_sparse h hn hkind
  | btree => exact makes_btree h hn hkind
  | bitset => exact makes_bitset h hn hkind
  | bitvec => exact makes_bitvec h hn hkind
  | special | syscalls | errors =>
    obtain ⟨op, operands⟩ := instr
    cases op with
    | nop | halt | syscall | asyncSyscall | try_ | catch_ | endTry => cases hn
    | _ => cases hkind

end View

/-! ## Updates in place -/

/-- `e'` is `e` but for one place, whose value has kept its type. -/
def Updates (e e' : Executor ω) : Prop :=
  ∃ q c c', q.get e = some c ∧ q.get e' = some c' ∧ c'.fasmType = c.fasmType ∧
    ChangesOnly (· = q) e e'

section Updates

variable {e e' : Executor ω} {a : Action} {instr : Instruction}

/-- The end of an instruction that updates a collection. -/
theorem updates_of_run {op : Operand} {f : Value → Except Stop (Unit × Value)}
    (hf : ∀ c u r, f c = .ok (u, r) → r.fasmType = c.fasmType)
    (h : (writeTargetMut op f >>= fun _ => pure .continue_ : ExecM ω Action) e = .ok a e') :
    Updates e e' := by
  obtain ⟨u, e₁, hmut, hpure⟩ := bind_run_eq_ok h
  cases hpure
  obtain ⟨q, c, c', -, -, hget, hfc, hget', hch⟩ := writeTargetMut_changes hmut
  exact ⟨q, c, c', hget, hget', hf c u c' hfc, hch⟩

theorem fasmType_of_unit {f : Value → Except Stop Value}
    (hf : ∀ c r, f c = .ok r → r.fasmType = c.fasmType) (c : Value) (u : Unit) (r : Value)
    (h : (do return ((), ← f c) : Except Stop (Unit × Value)) = .ok (u, r)) :
    r.fasmType = c.fasmType := by
  obtain ⟨r', hr, h⟩ := bind_eq_ok h
  cases h
  exact hf c _ hr

theorem pushOp_updates {f : Value → Value → Except Stop Value}
    (hf : ∀ c x r, f c x = .ok r → r.fasmType = c.fasmType) (h : pushOp instr f e = .ok a e') :
    Updates e e' := by
  obtain ⟨op₁, -, h⟩ := getOp_bind_eq_ok h
  obtain ⟨x, -, h⟩ := reads_bind_eq_ok h
  obtain ⟨op₀, -, h⟩ := getOp_bind_eq_ok h
  exact updates_of_run (fasmType_of_unit fun c r => hf c x r) h

theorem keyedMut_updates {f : Value → U32 → Except Stop Value}
    (hf : ∀ c k r, f c k = .ok r → r.fasmType = c.fasmType) (h : keyedMut instr f e = .ok a e') :
    Updates e e' := by
  obtain ⟨op₁, -, h⟩ := getOp_bind_eq_ok h
  obtain ⟨x, -, h⟩ := reads_bind_eq_ok h
  obtain ⟨k, -, h⟩ := lift_bind_eq_ok h
  obtain ⟨op₀, -, h⟩ := getOp_bind_eq_ok h
  exact updates_of_run (fasmType_of_unit fun c r => hf c k r) h

theorem keyedSet_updates {f : Value → U32 → Value → Except Stop Value}
    (hf : ∀ c k x r, f c k x = .ok r → r.fasmType = c.fasmType)
    (h : keyedSet instr f e = .ok a e') : Updates e e' := by
  obtain ⟨op₁, -, h⟩ := getOp_bind_eq_ok h
  obtain ⟨x, -, h⟩ := reads_bind_eq_ok h
  obtain ⟨k, -, h⟩ := lift_bind_eq_ok h
  obtain ⟨op₂, -, h⟩ := getOp_bind_eq_ok h
  obtain ⟨y, -, h⟩ := reads_bind_eq_ok h
  obtain ⟨op₀, -, h⟩ := getOp_bind_eq_ok h
  exact updates_of_run (fasmType_of_unit fun c r => hf c k y r) h

theorem fasmType_onStruct {f : List (U32 × Value) → List (U32 × Value)} (c : Value) (u : Unit)
    (r : Value) (h : (onStruct c fun l => .ok ((), .struct (f l))) = .ok (u, r)) :
    r.fasmType = c.fasmType := by
  obtain ⟨l, rfl, h⟩ := onStruct_eq_ok h
  cases h
  rfl

theorem execSetField_updates (h : execSetField instr e = .ok a e') : Updates e e' := by
  obtain ⟨op₁, -, h⟩ := getOp_bind_eq_ok h
  obtain ⟨k, -, h⟩ := reads_bind_eq_ok h
  obtain ⟨op₂, -, h⟩ := getOp_bind_eq_ok h
  obtain ⟨y, -, h⟩ := reads_bind_eq_ok h
  obtain ⟨op₀, -, h⟩ := getOp_bind_eq_ok h
  exact updates_of_run fasmType_onStruct h

theorem execDelField_updates (h : execDelField instr e = .ok a e') : Updates e e' := by
  obtain ⟨op₁, -, h⟩ := getOp_bind_eq_ok h
  obtain ⟨k, -, h⟩ := reads_bind_eq_ok h
  obtain ⟨op₀, -, h⟩ := getOp_bind_eq_ok h
  exact updates_of_run fasmType_onStruct h

theorem execVecSort_updates {host : Host ω} (h : execVecSort instr host e = .ok a e') :
    Updates e e' := by
  obtain ⟨op₀, -, h⟩ := getOp_bind_eq_ok h
  refine updates_of_run (fun c u r hc => ?_) h
  cases c <;> cases hc
  rfl

theorem execBitvecWrite_updates (h : execBitvecWrite instr e = .ok a e') : Updates e e' := by
  obtain ⟨op₁, -, h⟩ := getOp_bind_eq_ok h
  obtain ⟨x, -, h⟩ := reads_bind_eq_ok h
  obtain ⟨start, -, h⟩ := lift_bind_eq_ok h
  obtain ⟨op₂, -, h⟩ := getOp_bind_eq_ok h
  obtain ⟨y, -, h⟩ := reads_bind_eq_ok h
  obtain ⟨len, -, h⟩ := lift_bind_eq_ok h
  obtain ⟨op₃, -, h⟩ := getOp_bind_eq_ok h
  obtain ⟨z, -, h⟩ := reads_bind_eq_ok h
  obtain ⟨bits, -, h⟩ := lift_bind_eq_ok h
  obtain ⟨op₀, -, h⟩ := getOp_bind_eq_ok h
  exact updates_of_run (fasmType_of_unit fun _ _ hc => onBitvec_eq_ok hc) h

theorem execBitvecPush_updates (h : execBitvecPush instr e = .ok a e') : Updates e e' := by
  obtain ⟨op₁, -, h⟩ := getOp_bind_eq_ok h
  obtain ⟨x, -, h⟩ := reads_bind_eq_ok h
  obtain ⟨bits, -, h⟩ := lift_bind_eq_ok h
  obtain ⟨op₂, -, h⟩ := getOp_bind_eq_ok h
  obtain ⟨y, -, h⟩ := reads_bind_eq_ok h
  obtain ⟨len, -, h⟩ := lift_bind_eq_ok h
  obtain ⟨op₀, -, h⟩ := getOp_bind_eq_ok h
  exact updates_of_run (fasmType_of_unit fun _ _ hc => onBitvec_eq_ok hc) h

/-- An update in place keeps the type of the collection. -/
theorem executeInstruction_updates {host : Host ω} {p : Program}
    (h : executeInstruction host p instr e = .ok a e')
    (hup : instr.opcode.updatedIndex ≠ none) (hrel : instr.opcode ≠ .release)
    (htake : instr.opcode.takesOut = false) : Updates e e' := by
  obtain ⟨op, operands⟩ := instr
  cases op with
  | push | enqueue | prepend =>
    refine pushOp_updates (fun c x r hc => ?_) h
    cases c <;> cases hc <;> rfl
  | bitAnd | bitOr | bitXor => exact pushOp_updates (fun c x r hc => onBitsets_eq_ok hc) h
  | sparseDel =>
    refine keyedMut_updates (fun c k r hc => ?_) h
    obtain ⟨l, rfl, hc⟩ := onSparse_eq_ok hc
    cases hc
    rfl
  | btreeDel =>
    refine keyedMut_updates (fun c k r hc => ?_) h
    obtain ⟨l, rfl, hc⟩ := onBTree_eq_ok hc
    cases hc
    rfl
  | bitSet_ | bitFlip | bitClr | bitGrow =>
    exact keyedMut_updates (fun c k r hc => onBitset_eq_ok hc) h
  | setIdx =>
    refine keyedSet_updates (fun c k x r hc => ?_) h
    split at hc
    · split at hc <;> cases hc
      rfl
    · cases hc
  | sparseSet =>
    refine keyedSet_updates (fun c k x r hc => ?_) h
    obtain ⟨l, rfl, hc⟩ := onSparse_eq_ok hc
    cases hc
    rfl
  | btreeSet =>
    refine keyedSet_updates (fun c k x r hc => ?_) h
    obtain ⟨l, rfl, hc⟩ := onBTree_eq_ok hc
    cases hc
    rfl
  | setField => exact execSetField_updates h
  | delField => exact execDelField_updates h
  | vecSort => exact execVecSort_updates h
  | bitvecWrite => exact execBitvecWrite_updates h
  | bitvecPush => exact execBitvecPush_updates h
  | release => exact absurd rfl hrel
  | pop | dequeue | popBack => cases htake
  | _ => exact absurd rfl hup

end Updates

/-! ## What becomes of a place -/

/-- What an instruction, run on `v`, does with the value of a place. -/
inductive PlaceStep (instr : Instruction) (v : View ω) (e' : Executor ω) (q : Place) : Prop
  | same (hget : q.get e' = q.get (v.plug []))
  | kept {c c'} (hget : q.get (v.plug []) = some c) (hget' : q.get e' = some c')
    (htype : c'.fasmType = c.fasmType)
  | made {op x} (hdst : instr.destination = some op) (hop : op.place (v.plug []) = some q)
    (hget' : q.get e' = some x) (hmakes : instr.Makes v x.fasmType)
  | released {s} (hrel : instr.opcode = .release) (hs : instr.operands[0]? = some (.slot s))
    (hplain : s.isPlain = true) (hq : s.place (v.plug []) = some q)

section Places

variable {host : Host ω} {p : Program} {instr : Instruction} {v w : View ω} {act : Action}

theorem PlaceStep.of_updates {e' : Executor ω} (h : Updates (v.plug []) e') (q : Place) :
    PlaceStep instr v e' q := by
  obtain ⟨q₀, c, c', hget, hget', htype, hch⟩ := h
  by_cases hq : q = q₀
  · subst hq
    exact .kept hget hget' htype
  · exact .same (hch.get_eq q hq)

/-- Taking an element out keeps the type of the collection and puts the element into the
target. -/
theorem popOp_places {f : Value → Except Stop (Value × Value)} {e' : Executor ω}
    (hn : instr.opcode.resultIndex = some 1)
    (hf : ∀ c x c', f c = .ok (x, c') → c'.fasmType = c.fasmType ∧ c'.place = none ∧
      (v.Reads instr 0 c → instr.Makes v x.fasmType))
    (h : popOp instr f (v.plug []) = .ok act e') (q : Place) : PlaceStep instr v e' q := by
  obtain ⟨coll, hcoll, h⟩ := getOp_bind_eq_ok h
  obtain ⟨x, e₁, hmut, h⟩ := bind_run_eq_ok h
  obtain ⟨dst, hdst, h⟩ := getOp_bind_eq_ok h
  obtain ⟨u, e₂, hw, hpure⟩ := bind_run_eq_ok h
  cases hpure
  obtain ⟨q₀, c, c', -, hread, hget, hfc, hget', hch⟩ := writeTargetMut_changes hmut
  obtain ⟨q₁, hq₁, hgetx, hch₁⟩ := writeOperand_ok hw
  obtain ⟨htype, href, htakes⟩ := hf c x c' hfc
  have hplace : dst.place (v.plug []) = some q₁ := place_of_changesOnly hch hget' href hq₁
  by_cases hq : q = q₁
  · subst hq
    refine .made ?_ hplace hgetx (htakes ⟨coll, hcoll, hread⟩)
    rw [Instruction.destination, hn]
    exact hdst
  · by_cases hq' : q = q₀
    · subst hq'
      exact .kept hget ((hch₁.get_eq q hq).trans hget') htype
    · exact .same ((hch₁.get_eq q hq).trans (hch.get_eq q hq'))

/-- What is left of a collection, and the element that was taken out. -/
theorem popped_eq_ok {o : Option Value} {l : List Value} {wrap : List Value → Value} {x c : Value}
    (h : ((do return (← orFault o .indexOutOfBounds, l) : Except Stop (Value × List Value)).map
      fun (x, l) => (x, wrap l)) = .ok (x, c)) : o = some x ∧ c = wrap l := by
  cases o with
  | some y => cases h; exact ⟨rfl, rfl⟩
  | none => cases h

theorem exec_pop_places (h : v.exec host p instr = .ok act w)
    (htake : instr.opcode.takesOut = true) (q : Place) : PlaceStep instr v (w.plug []) q := by
  have hrun := View.exec_run h
  obtain ⟨op, operands⟩ := instr
  cases op with
  | pop =>
    refine popOp_places rfl (fun c x c' hc => ?_) hrun q
    cases c with
    | stack l =>
      obtain ⟨hx, rfl⟩ := popped_eq_ok hc
      exact ⟨rfl, rfl, fun hr => ⟨x, ⟨l, hr, hx⟩, rfl⟩⟩
    | _ => cases hc
  | dequeue =>
    refine popOp_places rfl (fun c x c' hc => ?_) hrun q
    cases c with
    | queue l =>
      obtain ⟨hx, rfl⟩ := popped_eq_ok hc
      exact ⟨rfl, rfl, fun hr => ⟨x, ⟨l, .inl hr, hx⟩, rfl⟩⟩
    | deque l =>
      obtain ⟨hx, rfl⟩ := popped_eq_ok hc
      exact ⟨rfl, rfl, fun hr => ⟨x, ⟨l, .inr hr, hx⟩, rfl⟩⟩
    | _ => cases hc
  | popBack =>
    refine popOp_places rfl (fun c x c' hc => ?_) hrun q
    cases c with
    | deque l =>
      obtain ⟨hx, rfl⟩ := popped_eq_ok hc
      exact ⟨rfl, rfl, fun hr => ⟨x, ⟨l, hr, hx⟩, rfl⟩⟩
    | _ => cases hc
  | _ => cases htake

/-- Every instruction but a syscall leaves the value of a place alone, updates it in place,
replaces it by a value of a type that it makes, or releases it. -/
theorem exec_places (h : v.exec host p instr = .ok act w)
    (hcall : instr.opcode.callsHandler = false) (hguard : instr.opcode.setsGuard = false)
    (htmp : instr.opcode.setsTmp = false) (q : Place) : PlaceStep instr v (w.plug []) q := by
  have hrun := View.exec_run h
  by_cases htake : instr.opcode.takesOut = true
  · exact exec_pop_places h htake q
  have hno : instr.opcode.takesOut = false := Bool.not_eq_true _ ▸ htake
  by_cases hrel : instr.opcode = .release
  · obtain ⟨op, operands⟩ := instr
    obtain rfl : op = .release := hrel
    obtain ⟨op₀, h₀, hrun⟩ := getOp_bind_eq_ok hrun
    obtain ⟨u, e₁, hr, hpure⟩ := bind_run_eq_ok hrun
    cases hpure
    have hch := releaseOperand_changes hr
    by_cases hq : ∃ s, op₀ = .slot s ∧ s.isPlain = true ∧ s.place (v.plug []) = some q
    · obtain ⟨s, rfl, hplain, hq⟩ := hq
      exact .released rfl h₀ hplain hq
    · exact .same (hch.get_eq q hq)
  cases hn : instr.opcode.resultIndex with
  | some n =>
    obtain ⟨x, ⟨op, hop, hw⟩, hmakes⟩ := View.exec_makes h hn hno
    obtain ⟨q₀, hq₀, hget, hch⟩ := writeOperand_ok hw
    by_cases hq : q = q₀
    · subst hq
      refine .made ?_ hq₀ hget hmakes
      rw [Instruction.destination, hn]
      exact hop
    · exact .same (hch.get_eq q hq)
  | none =>
    by_cases hup : instr.opcode.updatedIndex = none
    · have hch := changesOnly_targets hrun hcall hguard htmp
      refine .same (hch.get_eq q ?_)
      rintro ⟨op, hop | hop, -⟩
      · rw [Instruction.destination, hn] at hop
        cases hop
      · rw [Instruction.updated, hup] at hop
        cases hop
    · exact .of_updates (executeInstruction_updates hrun hup hrel hno) q

end Places

end Fasm
