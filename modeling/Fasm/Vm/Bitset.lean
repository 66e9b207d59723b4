import Mathlib.Order.SymmDiff
import Mathlib.Data.Finset.SymmDiff
import Fasm.Lib.PackedBits
import Fasm.Vm.Gives
import Fasm.Vm.ValuePanics

/-!
# Bitsets

A `BITSET` is a set of numbers: each operation does to the bytes what the operation on sets does
to the positions of the ones.  Neither a byte's boundary nor a difference in length matters, since
bytes that are not there count as zeros.
-/

namespace Fasm

namespace FasmBitset

variable {b b' : FasmBitset} {idx : U32}

/-- The positions of the bits that are set. -/
def bits (b : FasmBitset) : Finset Nat := bitSet b.bytes

theorem mem_bits {i : Nat} : i ∈ b.bits ↔ bitAt b.bytes i = true := mem_bitSet (by decide)

/-- `get_bit` looks the number up. -/
theorem getBit_eq (b : FasmBitset) (idx : U32) : b.getBit idx = decide (idx.toNat ∈ b.bits) := by
  have hbit : b.getBit idx = bitAt b.bytes idx.toNat := by
    rw [getBit, bitAt, wordAt]
    split
    · rename_i byte hbyte
      rw [hbyte]
      rfl
    · rename_i hbyte
      rw [hbyte]
      exact BitVec.getLsbD_zero.symm
  rw [hbit, Bool.eq_iff_iff, decide_eq_true_iff, mem_bits]

/-- `popcount` is the number of elements, in 32 bits. -/
theorem popcount_eq (b : FasmBitset) : b.popcount = .ofNat 32 b.bits.card :=
  congrArg (BitVec.ofNat 32) (sum_ones_eq_card (by decide) b.bytes)

/-! ## One bit -/

theorem getLsbD_bit8 {k m : Nat} (hk : k < 8) (hm : m < 8) :
    (bit8 k).getLsbD m = decide (m = k) := by
  have hall : ∀ k < 8, ∀ m < 8, (bit8 k).getLsbD m = decide (m = k) := by decide
  exact hall k hk m hm

/-- Growing adds zeros. -/
theorem bitAt_growBytes (bytes : List U8) (n i : Nat) :
    bitAt (growBytes bytes n) i = bitAt bytes i := bitAt_append_zeros _ _ _

@[simp] theorem bits_growTo (b : FasmBitset) (n : U32) : (b.growTo n).bits = b.bits := by
  ext i
  rw [mem_bits, mem_bits]
  exact iff_of_eq (congrArg (· = true) (bitAt_growBytes _ _ _))

/-- An update of a byte that is there. -/
theorem updateByte_eq_ok {bytes bytes' : List U8} {k : Nat} {f : U8 → U8}
    (h : updateByte bytes k f = .ok bytes') : k < bytes.length ∧ bytes' = bytes.modify k f := by
  unfold updateByte at h
  split at h
  case isTrue hlt =>
    cases h
    exact ⟨hlt, rfl⟩
  case isFalse => cases h

/-- What `set_bit` and `flip_bit` work on: the bitset, grown up to the bit. -/
def reach (b : FasmBitset) (idx : U32) : FasmBitset :=
  if b.bytes.length ≤ idx.toNat / 8 then b.growTo (idx + 1) else b

@[simp] theorem bitAt_reach (b : FasmBitset) (idx : U32) (i : Nat) :
    bitAt (b.reach idx).bytes i = bitAt b.bytes i := by
  unfold reach
  split
  · exact bitAt_growBytes _ _ _
  · rfl

theorem updateGrown_eq_ok {f : U8 → U8} (h : b.updateGrown idx f = .ok b') :
    idx.toNat / 8 < (b.reach idx).bytes.length ∧
      b' = ⟨(b.reach idx).bytes.modify (idx.toNat / 8) f, (b.reach idx).len⟩ := by
  obtain ⟨bytes, hbytes, h⟩ := bind_eq_ok h
  cases h
  obtain ⟨hlt, rfl⟩ := updateByte_eq_ok hbytes
  exact ⟨hlt, rfl⟩

/-- What `set_bit` and `flip_bit` do to a byte decides what they do to the row. -/
theorem bitAt_updateGrown {f : U8 → U8} {g : Bool → Bool} (h : b.updateGrown idx f = .ok b')
    (hf : ∀ x : U8, ∀ m < 8, (f x).getLsbD m =
      if m = idx.toNat % 8 then g (x.getLsbD m) else x.getLsbD m) (i : Nat) :
    bitAt b'.bytes i = if i = idx.toNat then g (bitAt b.bytes i) else bitAt b.bytes i := by
  obtain ⟨hlt, rfl⟩ := updateGrown_eq_ok h
  rw [bitAt_modify (by decide) (.inl hlt) hf, bitAt_reach]

theorem bits_setBit (h : b.setBit idx = .ok b') : b'.bits = insert idx.toNat b.bits := by
  ext i
  rw [Finset.mem_insert, mem_bits, mem_bits, bitAt_updateGrown (g := fun _ => true) h]
  · split <;> simp [*]
  · intro x m hm
    rw [BitVec.getLsbD_or, getLsbD_bit8 (Nat.mod_lt _ (by decide)) hm]
    split <;> simp [*]

theorem bits_flipBit (h : b.flipBit idx = .ok b') : b'.bits = symmDiff b.bits {idx.toNat} := by
  ext i
  rw [Finset.mem_symmDiff, Finset.mem_singleton, mem_bits, mem_bits,
    bitAt_updateGrown (g := not) h]
  · split <;> simp [*]
  · intro x m hm
    rw [BitVec.getLsbD_xor, getLsbD_bit8 (Nat.mod_lt _ (by decide)) hm]
    split <;> simp [*]

@[simp] theorem bits_clrBit (b : FasmBitset) (idx : U32) :
    (b.clrBit idx).bits = b.bits.erase idx.toNat := by
  ext i
  rw [Finset.mem_erase, mem_bits, mem_bits]
  have hzero : (0 : U8) &&& ~~~bit8 (idx.toNat % 8) = 0 := BitVec.zero_and
  show bitAt (b.bytes.modify _ fun x => x &&& ~~~bit8 (idx.toNat % 8)) i = true ↔ _
  rw [bitAt_modify (g := fun _ => false) (by decide) (.inr hzero)]
  · split <;> simp [*]
  · intro x m hm
    rw [BitVec.getLsbD_and, BitVec.getLsbD_not, getLsbD_bit8 (Nat.mod_lt _ (by decide)) hm]
    split <;> simp [*]

/-! ## Two rows -/

theorem wordAt_bitAnd (d s : FasmBitset) (k : Nat) :
    wordAt (bitAnd d s).bytes k = wordAt d.bytes k &&& wordAt s.bytes k := by
  rw [bitAnd, wordAt, wordAt, wordAt, List.getElem?_mapIdx, List.getD_eq_getElem?_getD]
  cases d.bytes[k]? with
  | none => exact BitVec.zero_and.symm
  | some byte => rfl

theorem wordAt_bitMerge {op : U8 → U8 → U8} (hop : ∀ x, op x 0 = x) (d s : FasmBitset) (k : Nat) :
    wordAt (bitMerge op d s).bytes k = op (wordAt d.bytes k) (wordAt s.bytes k) := by
  have hgrow := wordAt_append_zeros d.bytes (s.bytes.length - d.bytes.length) k
  rw [← hgrow, bitMerge, wordAt, wordAt, wordAt, List.getElem?_mapIdx]
  show ((growBytes d.bytes s.bytes.length)[k]?.map _).getD 0 = op ((growBytes _ _)[k]?.getD 0) _
  cases hd : (growBytes d.bytes s.bytes.length)[k]? with
  | some byte =>
    cases s.bytes[k]? with
    | some sb => rfl
    | none => exact (hop byte).symm
  | none =>
    have hlen := List.getElem?_eq_none_iff.mp hd
    rw [length_growBytes] at hlen
    rw [List.getElem?_eq_none (by omega)]
    exact (hop 0).symm

@[simp] theorem bits_bitAnd (d s : FasmBitset) : (bitAnd d s).bits = d.bits ∩ s.bits := by
  ext i
  rw [Finset.mem_inter, mem_bits, mem_bits, mem_bits, ← Bool.and_eq_true]
  rw [bitAt_of_wordAt (by decide) (fun x y m _ => BitVec.getLsbD_and) (wordAt_bitAnd d s)]

@[simp] theorem bits_bitOr (d s : FasmBitset) :
    (bitMerge (· ||| ·) d s).bits = d.bits ∪ s.bits := by
  ext i
  rw [Finset.mem_union, mem_bits, mem_bits, mem_bits, ← Bool.or_eq_true]
  rw [bitAt_of_wordAt (by decide) (fun x y m _ => BitVec.getLsbD_or)
    (wordAt_bitMerge (fun _ => BitVec.or_zero) d s)]

@[simp] theorem bits_bitXor (d s : FasmBitset) :
    (bitMerge (· ^^^ ·) d s).bits = symmDiff d.bits s.bits := by
  ext i
  rw [Finset.mem_symmDiff, mem_bits, mem_bits, mem_bits,
    bitAt_of_wordAt (by decide) (fun x y m _ => BitVec.getLsbD_xor)
      (wordAt_bitMerge (fun _ => BitVec.xor_zero) d s)]
  cases bitAt d.bytes i <;> cases bitAt s.bytes i <;> decide

/-- A `BITSET` as it is made. -/
def empty : FasmBitset := ⟨[], 0⟩

@[simp] theorem bits_empty : empty.bits = ∅ := rfl

end FasmBitset

/-! ## Operations on named bitsets -/

/-- `as_u32` of an operand of its own type. -/
theorem asU32_uint32 (n : U32) : asU32 (.uint32 n) = .ok n :=
  congrArg Except.ok (setWidth_asI64 .uint32 n)

/-- An instruction that changes a bitset, one of those that `ι` names. -/
inductive BitOp (ι : Type) where
  | set (dst : ι) (idx : U32)
  | clr (dst : ι) (idx : U32)
  | flip (dst : ι) (idx : U32)
  | grow (dst : ι) (nBits : U32)
  | and (dst src : ι)
  | or (dst src : ι)
  | xor (dst src : ι)

namespace BitOp

variable {ι : Type}

/-- The bitset that is changed. -/
def target : BitOp ι → ι
  | set d _ | clr d _ | flip d _ | grow d _ | and d _ | or d _ | xor d _ => d

/-- What becomes of it. -/
def result (regs : ι → FasmBitset) : BitOp ι → Except Panic FasmBitset
  | set d idx => (regs d).setBit idx
  | clr d idx => .ok ((regs d).clrBit idx)
  | flip d idx => (regs d).flipBit idx
  | grow d nBits => .ok ((regs d).growTo ((regs d).len + nBits))
  | and d s => .ok ((regs d).bitAnd (regs s))
  | or d s => .ok ((regs d).bitMerge (· ||| ·) (regs s))
  | xor d s => .ok ((regs d).bitMerge (· ^^^ ·) (regs s))

/-- The opcode. -/
def opcode : BitOp ι → Opcode
  | set _ _ => .bitSet_
  | clr _ _ => .bitClr
  | flip _ _ => .bitFlip
  | grow _ _ => .bitGrow
  | and _ _ => .bitAnd
  | or _ _ => .bitOr
  | xor _ _ => .bitXor

theorem updatesTo_idx {op : Opcode} {f : U32 → FasmBitset → Except Panic FasmBitset}
    (h : ∀ {ω : Type} (host : Host ω) (p : Program) (operands : List Operand),
      executeInstruction host p ⟨op, operands⟩ =
        keyedMut ⟨op, operands⟩ fun coll idx => onBitset coll (f idx))
    {k : Value} {idx : U32} (hk : asU32 k = .ok idx) (b : FasmBitset) :
    UpdatesTo op (.bitset b) [k] ((orPanic (f idx b)).map .bitset) :=
  updatesTo_keyedMut h hk (.bitset b)

section Index

variable {k : Value} {idx : U32} (hk : asU32 k = .ok idx) (b : FasmBitset)
include hk

theorem updatesTo_set : UpdatesTo .bitSet_ (.bitset b) [k] ((orPanic (b.setBit idx)).map .bitset) :=
  updatesTo_idx (f := fun idx b => b.setBit idx) (fun _ _ _ => rfl) hk b

theorem updatesTo_clr : UpdatesTo .bitClr (.bitset b) [k] (.ok (.bitset (b.clrBit idx))) :=
  updatesTo_idx (f := fun idx b => .ok (b.clrBit idx)) (fun _ _ _ => rfl) hk b

theorem updatesTo_flip :
    UpdatesTo .bitFlip (.bitset b) [k] ((orPanic (b.flipBit idx)).map .bitset) :=
  updatesTo_idx (f := fun idx b => b.flipBit idx) (fun _ _ _ => rfl) hk b

theorem updatesTo_grow :
    UpdatesTo .bitGrow (.bitset b) [k] (.ok (.bitset (b.growTo (b.len + idx)))) :=
  updatesTo_idx (f := fun n b => .ok (b.growTo (b.len + n))) (fun _ _ _ => rfl) hk b

theorem gives_get : Gives Opcode.bitGet.into [.bitset b, k] (.ok (.bool (idx.toNat ∈ b.bits))) := by
  refine (gives_keyed (fun _ _ _ => rfl) hk (.bitset b)).of_eq ?_
  exact congrArg (fun bit => Except.ok (Value.bool bit)) (b.getBit_eq idx)

end Index

theorem updatesTo_src {op : Opcode} {f : FasmBitset → FasmBitset → FasmBitset}
    (h : ∀ {ω : Type} (host : Host ω) (p : Program) (operands : List Operand),
      executeInstruction host p ⟨op, operands⟩ = pushOp ⟨op, operands⟩ (onBitsets f))
    (d s : FasmBitset) : UpdatesTo op (.bitset d) [.bitset s] (.ok (.bitset (f d s))) :=
  updatesTo_push h (.bitset d) (.bitset s)

/-- What the operand after the target reads. -/
def arg (regs : ι → FasmBitset) : BitOp ι → Value
  | set _ idx | clr _ idx | flip _ idx => .uint32 idx
  | grow _ nBits => .uint32 nBits
  | and _ s | or _ s | xor _ s => .bitset (regs s)

/-- The instruction does that. -/
theorem updatesTo (regs : ι → FasmBitset) (op : BitOp ι) :
    UpdatesTo op.opcode (.bitset (regs op.target)) [op.arg regs]
      ((orPanic (op.result regs)).map .bitset) := by
  cases op with
  | set d idx => exact updatesTo_set (asU32_uint32 idx) _
  | clr d idx => exact updatesTo_clr (asU32_uint32 idx) _
  | flip d idx => exact updatesTo_flip (asU32_uint32 idx) _
  | grow d nBits => exact updatesTo_grow (asU32_uint32 nBits) _
  | and d s => exact updatesTo_src (f := FasmBitset.bitAnd) (fun _ _ _ => rfl) _ _
  | or d s => exact updatesTo_src (f := FasmBitset.bitMerge (· ||| ·)) (fun _ _ _ => rfl) _ _
  | xor d s => exact updatesTo_src (f := FasmBitset.bitMerge (· ^^^ ·)) (fun _ _ _ => rfl) _ _

variable [DecidableEq ι]

/-- One instruction. -/
def step (regs : ι → FasmBitset) (op : BitOp ι) : Except Panic (ι → FasmBitset) := do
  return Function.update regs op.target (← op.result regs)

/-- The same for sets of numbers. -/
def onSets (sets : ι → Finset Nat) (op : BitOp ι) : ι → Finset Nat :=
  Function.update sets op.target <| match op with
    | set d idx => insert idx.toNat (sets d)
    | clr d idx => (sets d).erase idx.toNat
    | flip d idx => symmDiff (sets d) {idx.toNat}
    | grow d _ => sets d
    | and d s => sets d ∩ sets s
    | or d s => sets d ∪ sets s
    | xor d s => symmDiff (sets d) (sets s)

/-- An instruction does to the sets of positions what it should. -/
theorem step_bits {regs regs' : ι → FasmBitset} {op : BitOp ι} (h : op.step regs = .ok regs') :
    (fun r => (regs' r).bits) = op.onSets fun r => (regs r).bits := by
  obtain ⟨b, hb, h⟩ := bind_eq_ok h
  cases h
  have hupdate : (fun r => (Function.update regs op.target b r).bits) =
      Function.update (fun r => (regs r).bits) op.target b.bits := by
    funext r
    exact Function.apply_update (fun _ => FasmBitset.bits) regs op.target b r
  rw [hupdate]
  apply congrArg (Function.update _ op.target)
  cases op with
  | set d idx => exact FasmBitset.bits_setBit hb
  | clr d idx => cases hb; exact FasmBitset.bits_clrBit _ _
  | flip d idx => exact FasmBitset.bits_flipBit hb
  | grow d nBits => cases hb; exact FasmBitset.bits_growTo _ _
  | and d s => cases hb; exact FasmBitset.bits_bitAnd _ _
  | or d s => cases hb; exact FasmBitset.bits_bitOr _ _
  | xor d s => cases hb; exact FasmBitset.bits_bitXor _ _

/-- A sequence of them does. -/
theorem run_bits {ops : List (BitOp ι)} {regs regs' : ι → FasmBitset}
    (h : ops.foldlM step regs = .ok regs') :
    (fun r => (regs' r).bits) = ops.foldl onSets fun r => (regs r).bits := by
  induction ops generalizing regs with
  | nil => cases h; rfl
  | cons op ops ih =>
    rw [List.foldlM_cons] at h
    obtain ⟨regs₁, hstep, hrun⟩ := bind_eq_ok h
    rw [ih hrun, step_bits hstep]
    rfl

end BitOp

theorem gives_bitGet (b : FasmBitset) (idx : U32) :
    Gives Opcode.bitGet.into [.bitset b, .uint32 idx]
      (.ok (.bool (idx.toNat ∈ b.bits))) := BitOp.gives_get (asU32_uint32 idx) b

theorem gives_bitCount (b : FasmBitset) :
    Gives Opcode.bitCount.into [.bitset b] (.ok (.uint32 b.popcount)) := by
  intro ω host p e srcs dst hread
  obtain ⟨x, hx, rfl⟩ := hread.one
  exact unaryOp_run hx

/-- **Bitsets are sets.**  After any sequence of operations on bitsets that start empty, `BIT_GET`
finds the numbers that the same operations on sets leave in each of them, and `BIT_COUNT` gives
how many there are. -/
theorem bitset_is_set {ι : Type} [DecidableEq ι] {ops : List (BitOp ι)} {regs : ι → FasmBitset}
    (h : ops.foldlM BitOp.step (fun _ => .empty) = .ok regs) (r : ι) :
    (∀ idx : U32, Gives Opcode.bitGet.into [.bitset (regs r), .uint32 idx]
      (.ok (.bool (idx.toNat ∈ ops.foldl BitOp.onSets (fun _ => ∅) r)))) ∧
    ((ops.foldl BitOp.onSets (fun _ => ∅) r).card < 2 ^ 32 →
      ∃ n : U32, Gives Opcode.bitCount.into [.bitset (regs r)] (.ok (.uint32 n)) ∧
        n.toNat = (ops.foldl BitOp.onSets (fun _ => ∅) r).card) := by
  have hbits : (regs r).bits = ops.foldl BitOp.onSets (fun _ => ∅) r :=
    congrFun (BitOp.run_bits h) r
  rw [← hbits]
  constructor
  · exact gives_bitGet (regs r)
  · intro hcard
    refine ⟨(regs r).popcount, gives_bitCount (regs r), ?_⟩
    rw [FasmBitset.popcount_eq, BitVec.toNat_ofNat, Nat.mod_eq_of_lt hcard]

/-- The symmetric difference of two bitsets of different lengths. -/
theorem bitset_is_set_xor : ∃ regs : Bool → FasmBitset,
    [BitOp.set false 3, .set true 70, .set true 3, .xor false true].foldlM BitOp.step
      (fun _ => .empty) = .ok regs ∧
    Gives Opcode.bitGet.into [.bitset (regs false), .uint32 70] (.ok (.bool true)) ∧
    ∃ n : U32, Gives Opcode.bitCount.into [.bitset (regs false)] (.ok (.uint32 n)) ∧
      n.toNat = 1 := by
  obtain ⟨regs, hrun⟩ : ∃ regs : Bool → FasmBitset,
    [BitOp.set false 3, .set true 70, .set true 3, .xor false true].foldlM BitOp.step
      (fun _ => .empty) = .ok regs := ⟨_, rfl⟩
  have hset := bitset_is_set hrun false
  refine ⟨regs, hrun, ?_, hset.2 (by decide)⟩
  exact (hset.1 70).of_eq (congrArg (fun bit => Except.ok (Value.bool bit)) (by decide))

end Fasm
