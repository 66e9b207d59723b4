import Fasm.Lib.Trace
import Fasm.Vm.Bitset

/-!
# The length of a bitset

A `BITSET` has a length beside its bytes, and the two are changed by different operations.  A
bitset is `Covered` if all its bits are below its length and its bytes are those that the length
needs.  `BIT_SET` and `BIT_FLIP` raise the length only when they need a new byte, `BIT_OR` and
`BIT_XOR` never do, and `BIT_GROW` adds in 32 bits: `BitOp.Fits` says when none of this matters.
-/

namespace Fasm

namespace FasmBitset

variable {b b' d s : FasmBitset} {idx : U32}

/-- The length is above every bit, and the bytes are those that it needs. -/
structure Covered (b : FasmBitset) : Prop where
  /-- Every bit that is set is below the length. -/
  lt_len : ∀ i ∈ b.bits, i < b.len.toNat
  /-- The bytes are an eighth of the length, rounded up. -/
  length_bytes : b.bytes.length = divCeil8 b.len.toNat

theorem covered_empty : empty.Covered := ⟨fun i hi => absurd hi (Finset.notMem_empty i), rfl⟩

/-- Nothing but the bits and the length makes a difference. -/
theorem Covered.ext (hb : b.Covered) (hb' : b'.Covered) (hbits : b.bits = b'.bits)
    (hlen : b.len = b'.len) : b = b' := by
  have hbytes : b.bytes = b'.bytes := by
    apply eq_of_bitAt
    · rw [hb.length_bytes, hb'.length_bytes, hlen]
    · intro i
      rw [Bool.eq_iff_iff, ← mem_bits, ← mem_bits, hbits]
  cases b
  cases b'
  exact congrArg₂ FasmBitset.mk hbytes hlen

/-! ## Growing -/

theorem toNat_len_growTo (b : FasmBitset) (n : U32) :
    (b.growTo n).len.toNat = max b.len.toNat n.toNat := by
  have hult : b.len.ult n = decide (b.len.toNat < n.toNat) := rfl
  rw [growTo, hult]
  by_cases h : b.len.toNat < n.toNat
  · rw [decide_eq_true h]
    exact (Nat.max_eq_right (Nat.le_of_lt h)).symm
  · rw [decide_eq_false h]
    exact (Nat.max_eq_left (Nat.le_of_not_lt h)).symm

theorem length_bytes_growTo (b : FasmBitset) (n : U32) :
    (b.growTo n).bytes.length = max b.bytes.length (divCeil8 n.toNat) := length_growBytes _ _

theorem divCeil8_max (m n : Nat) : divCeil8 (max m n) = max (divCeil8 m) (divCeil8 n) := by
  unfold divCeil8
  omega

/-- A bitset that has grown is covered if it was. -/
theorem Covered.growTo (hb : b.Covered) (n : U32) : (b.growTo n).Covered where
  lt_len i hi := by
    rw [bits_growTo] at hi
    have hlt := hb.lt_len i hi
    rw [toNat_len_growTo]
    omega
  length_bytes := by
    rw [length_bytes_growTo, toNat_len_growTo, divCeil8_max, hb.length_bytes]

theorem len_le_growTo (b : FasmBitset) (n : U32) : b.len ≤ (b.growTo n).len := by
  rw [BitVec.le_def, toNat_len_growTo]
  exact Nat.le_max_left _ _

/-- The length that `BIT_GROW` leaves is the sum, if it is one in 32 bits. -/
theorem toNat_len_grow_iff (b : FasmBitset) (nBits : U32) :
    (b.growTo (b.len + nBits)).len.toNat = b.len.toNat + nBits.toNat ↔
      b.len.toNat + nBits.toNat < 2 ^ 32 := by
  have hsum : (b.len + nBits).toNat = (b.len.toNat + nBits.toNat) % 2 ^ 32 :=
    BitVec.toNat_add b.len nBits
  have hlen := b.len.isLt
  have hmod := Nat.mod_lt (b.len.toNat + nBits.toNat) (Nat.two_pow_pos 32)
  rw [toNat_len_growTo, hsum]
  constructor
  · intro h
    rcases Nat.le_total b.len.toNat ((b.len.toNat + nBits.toNat) % 2 ^ 32) with hle | hle
    · rw [Nat.max_eq_right hle] at h
      omega
    · rw [Nat.max_eq_left hle] at h
      omega
  · intro h
    rw [Nat.mod_eq_of_lt h]
    exact Nat.max_eq_right (Nat.le_add_right _ _)

theorem Covered.reach (hb : b.Covered) (idx : U32) : (b.reach idx).Covered := by
  unfold FasmBitset.reach
  split
  · exact hb.growTo _
  · exact hb

theorem len_le_reach (b : FasmBitset) (idx : U32) : b.len ≤ (b.reach idx).len := by
  unfold reach
  split
  · exact len_le_growTo _ _
  · exact BitVec.le_refl _

/-- A bit has a place below the length if the byte for it is made now, or if it had one. -/
theorem lt_len_reach_iff (h : idx.toNat / 8 < (b.reach idx).bytes.length) :
    idx.toNat < (b.reach idx).len.toNat ↔
      idx.toNat < b.len.toNat ∨ b.bytes.length ≤ idx.toNat / 8 := by
  unfold reach at h ⊢
  split
  case isTrue hlen =>
    rw [if_pos hlen, length_bytes_growTo, divCeil8] at h
    have hsucc : (idx + 1).toNat = (idx.toNat + 1) % 2 ^ 32 := BitVec.toNat_add idx 1
    have hidx := idx.isLt
    rw [toNat_len_growTo]
    omega
  case isFalse hlen =>
    have hnot : ¬ b.bytes.length ≤ idx.toNat / 8 := hlen
    simp only [hnot, or_false]

/-! ## One bit -/

/-- What `set_bit` and `flip_bit` leave is covered if the bit has a place below the length. -/
theorem covered_updateGrown_iff {f : U8 → U8} (h : b.updateGrown idx f = .ok b')
    (hb : b.Covered) (hother : ∀ i, i ≠ idx.toNat → i ∈ b'.bits → i ∈ b.bits)
    (hset : idx.toNat ∉ b.bits → idx.toNat ∈ b'.bits) :
    b'.Covered ↔ idx.toNat < b.len.toNat ∨ b.bytes.length ≤ idx.toNat / 8 := by
  obtain ⟨hlt, rfl⟩ := updateGrown_eq_ok h
  have hreach := hb.reach idx
  constructor
  · intro hcov
    by_cases hin : idx.toNat ∈ b.bits
    · exact .inl (hb.lt_len _ hin)
    · exact (lt_len_reach_iff hlt).mp (hcov.lt_len _ (hset hin))
  · intro hplace
    refine ⟨?_, ?_⟩
    · intro i hi
      by_cases heq : i = idx.toNat
      · rw [heq]
        exact (lt_len_reach_iff hlt).mpr hplace
      · have hlen : b.len.toNat ≤ (b.reach idx).len.toNat := len_le_reach b idx
        have hbit := hb.lt_len i (hother i heq hi)
        exact Nat.lt_of_lt_of_le hbit hlen
    · exact (List.length_modify _ _ _).trans hreach.length_bytes

theorem covered_setBit_iff (h : b.setBit idx = .ok b') (hb : b.Covered) :
    b'.Covered ↔ idx.toNat < b.len.toNat ∨ b.bytes.length ≤ idx.toNat / 8 := by
  apply covered_updateGrown_iff h hb
  · intro i hne hi
    rw [bits_setBit h] at hi
    exact Finset.mem_of_mem_insert_of_ne hi hne
  · intro _
    rw [bits_setBit h]
    exact Finset.mem_insert_self _ _

theorem covered_flipBit_iff (h : b.flipBit idx = .ok b') (hb : b.Covered) :
    b'.Covered ↔ idx.toNat < b.len.toNat ∨ b.bytes.length ≤ idx.toNat / 8 := by
  apply covered_updateGrown_iff h hb
  · intro i hne hi
    rw [bits_flipBit h, Finset.mem_symmDiff, Finset.mem_singleton] at hi
    exact (hi.resolve_right fun h => hne h.1).1
  · intro hnot
    rw [bits_flipBit h, Finset.mem_symmDiff]
    exact .inr ⟨Finset.mem_singleton_self _, hnot⟩

/-- Bytes that are changed in place stay covered if no bit comes in. -/
theorem Covered.of_subset {bytes : List U8} (hb : b.Covered)
    (hbits : (⟨bytes, b.len⟩ : FasmBitset).bits ⊆ b.bits) (hlen : bytes.length = b.bytes.length) :
    (⟨bytes, b.len⟩ : FasmBitset).Covered :=
  ⟨fun i hi => hb.lt_len i (hbits hi), hlen.trans hb.length_bytes⟩

theorem Covered.clrBit (hb : b.Covered) (idx : U32) : (b.clrBit idx).Covered := by
  apply hb.of_subset
  · exact (bits_clrBit b idx).trans_subset (Finset.erase_subset _ _)
  · exact List.length_modify _ _ _

/-! ## Two rows -/

theorem Covered.bitAnd (hd : d.Covered) (s : FasmBitset) : (d.bitAnd s).Covered := by
  apply hd.of_subset
  · exact (bits_bitAnd d s).trans_subset Finset.inter_subset_left
  · exact List.length_mapIdx

/-- The merged row is covered if the other row has its place below the length. -/
theorem covered_bitMerge_iff {op : U8 → U8 → U8} (hd : d.Covered)
    (hsub : (bitMerge op d s).bits ⊆ d.bits ∪ s.bits)
    (hset : ∀ i ∈ s.bits, i ∉ d.bits → i ∈ (bitMerge op d s).bits) :
    (bitMerge op d s).Covered ↔
      s.bytes.length ≤ d.bytes.length ∧ ∀ i ∈ s.bits, i < d.len.toNat := by
  have hlen : (bitMerge op d s).bytes.length = max d.bytes.length s.bytes.length :=
    List.length_mapIdx.trans (length_growBytes _ _)
  constructor
  · intro hcov
    refine ⟨?_, ?_⟩
    · have hbytes := hlen.symm.trans hcov.length_bytes
      rw [show (bitMerge op d s).len = d.len from rfl, ← hd.length_bytes] at hbytes
      omega
    · intro i hi
      by_cases hin : i ∈ d.bits
      · exact hd.lt_len i hin
      · exact hcov.lt_len i (hset i hi hin)
  · rintro ⟨hbytes, hplace⟩
    refine ⟨?_, ?_⟩
    · intro i hi
      rcases Finset.mem_union.mp (hsub hi) with hi | hi
      · exact hd.lt_len i hi
      · exact hplace i hi
    · rw [hlen, Nat.max_eq_left hbytes]
      exact hd.length_bytes

theorem covered_bitOr_iff (hd : d.Covered) : (bitMerge (· ||| ·) d s).Covered ↔
    s.bytes.length ≤ d.bytes.length ∧ ∀ i ∈ s.bits, i < d.len.toNat := by
  apply covered_bitMerge_iff hd
  · exact (bits_bitOr d s).subset
  · intro i hi _
    rw [bits_bitOr]
    exact Finset.mem_union_right _ hi

theorem covered_bitXor_iff (hd : d.Covered) : (bitMerge (· ^^^ ·) d s).Covered ↔
    s.bytes.length ≤ d.bytes.length ∧ ∀ i ∈ s.bits, i < d.len.toNat := by
  apply covered_bitMerge_iff hd
  · rw [bits_bitXor]
    exact symmDiff_le_sup
  · intro i hi hnot
    rw [bits_bitXor, Finset.mem_symmDiff]
    exact .inr ⟨hi, hnot⟩

end FasmBitset

/-! ## Steps -/

namespace BitOp

variable {ι : Type} {regs : ι → FasmBitset} {op : BitOp ι} {b : FasmBitset}

/-- The bits that the instruction may set have their place below the length of the target, or
get it with a new byte, and the new length of `BIT_GROW` is one. -/
def Fits (regs : ι → FasmBitset) : BitOp ι → Prop
  | set d idx | flip d idx =>
    idx.toNat < (regs d).len.toNat ∨ (regs d).bytes.length ≤ idx.toNat / 8
  | grow d nBits => (regs d).len.toNat + nBits.toNat < 2 ^ 32
  | or d s | xor d s => (regs s).bytes.length ≤ (regs d).bytes.length ∧
      ∀ i ∈ (regs s).bits, i < (regs d).len.toNat
  | clr _ _ | and _ _ => True

/-- Only `BIT_GROW` does not need to fit to leave its target covered. -/
theorem result_covered_iff (h : op.result regs = .ok b) (hcov : ∀ r, (regs r).Covered) :
    b.Covered ↔ op.Fits regs ∨ ∃ d nBits, op = grow d nBits := by
  cases op with
  | set d idx => simpa [Fits] using FasmBitset.covered_setBit_iff h (hcov d)
  | clr d idx => cases h; simpa [Fits] using (hcov d).clrBit idx
  | flip d idx => simpa [Fits] using FasmBitset.covered_flipBit_iff h (hcov d)
  | grow d nBits => cases h; simpa [Fits] using (hcov d).growTo _
  | and d s => cases h; simpa [Fits] using (hcov d).bitAnd _
  | or d s => cases h; simpa [Fits] using FasmBitset.covered_bitOr_iff (hcov d)
  | xor d s => cases h; simpa [Fits] using FasmBitset.covered_bitXor_iff (hcov d)

/-- No instruction makes its target shorter. -/
theorem len_le_result (h : op.result regs = .ok b) : (regs op.target).len ≤ b.len := by
  cases op with
  | set d idx =>
    obtain ⟨-, rfl⟩ := FasmBitset.updateGrown_eq_ok h
    exact FasmBitset.len_le_reach _ _
  | flip d idx =>
    obtain ⟨-, rfl⟩ := FasmBitset.updateGrown_eq_ok h
    exact FasmBitset.len_le_reach _ _
  | grow d nBits =>
    cases h
    exact FasmBitset.len_le_growTo _ _
  | _ =>
    cases h
    exact BitVec.le_refl _

variable [DecidableEq ι] {regs' : ι → FasmBitset}

/-- The lengths of the bitsets are right after an instruction. -/
structure KeepsLength (regs : ι → FasmBitset) (op : BitOp ι) (regs' : ι → FasmBitset) : Prop where
  /-- Every set bit is below the length, and the bytes are an eighth of it. -/
  covered : ∀ r, (regs' r).Covered
  /-- No length decreases. -/
  len_le : ∀ r, (regs r).len ≤ (regs' r).len
  /-- `BIT_GROW` adds its operand to the length. -/
  grow_len : ∀ d nBits, op = grow d nBits →
    (regs' d).len.toNat = (regs d).len.toNat + nBits.toNat
  /-- The positions that it adds read false. -/
  grow_get : ∀ d nBits, op = grow d nBits → ∀ idx : U32, (regs d).len ≤ idx →
    idx < (regs' d).len →
      Gives Opcode.bitGet.into [.bitset (regs' d), .uint32 idx] (.ok (.bool false))
  /-- Bitsets with the same bits and the same length are equal. -/
  eq : ∀ r r', (regs' r).bits = (regs' r').bits → (regs' r).len = (regs' r').len →
    Gives Opcode.eq.into [.bitset (regs' r), .bitset (regs' r')] (.ok (.bool true))

/-- An instruction changes its target only. -/
theorem step_eq_ok (h : op.step regs = .ok regs') :
    ∃ b, op.result regs = .ok b ∧ regs' = Function.update regs op.target b := by
  obtain ⟨b, hb, h⟩ := bind_eq_ok h
  cases h
  exact ⟨b, hb, rfl⟩

theorem eqVal_bitset (b : FasmBitset) : (Value.bitset b).eqVal (.bitset b) = true := by
  show (Value.bitset b).beq (.bitset b) = true
  rw [Value.beq]
  exact beq_self_eq_true b

/-- No bitset becomes shorter. -/
theorem len_le_step (h : op.result regs = .ok b) (r : ι) :
    (regs r).len ≤ (Function.update regs op.target b r).len := by
  apply (Function.forall_update_iff regs fun r b => (regs r).len ≤ b.len).mpr
  exact ⟨len_le_result h, fun r _ => BitVec.le_refl _⟩

/-- The positions that `BIT_GROW` adds read false. -/
theorem gives_get_grown {b : FasmBitset} (h : b.Covered) (n : U32) {idx : U32}
    (hidx : b.len ≤ idx) :
    Gives Opcode.bitGet.into [.bitset (b.growTo n), .uint32 idx] (.ok (.bool false)) := by
  have hnot : idx.toNat ∉ b.bits := fun hi => absurd (h.lt_len _ hi) (Nat.not_lt.mpr hidx)
  apply (gives_bitGet _ idx).of_eq
  rw [FasmBitset.bits_growTo, decide_eq_false hnot]

/-- An instruction keeps the lengths right if and only if it fits. -/
theorem keepsLength_iff (h : op.step regs = .ok regs') (hcov : ∀ r, (regs r).Covered) :
    op.KeepsLength regs regs' ↔ op.Fits regs := by
  obtain ⟨b, hb, rfl⟩ := step_eq_ok h
  have hiff := result_covered_iff hb hcov
  constructor
  · intro hkeeps
    have htarget := hkeeps.covered op.target
    rw [Function.update_self] at htarget
    rcases hiff.mp htarget with hfits | ⟨d, nBits, rfl⟩
    · exact hfits
    · cases hb
      have hlen := hkeeps.grow_len d nBits rfl
      rw [show (grow d nBits).target = d from rfl, Function.update_self] at hlen
      exact (FasmBitset.toNat_len_grow_iff _ _).mp hlen
  · intro hfits
    have hcov' : ∀ r, (Function.update regs op.target b r).Covered :=
      (Function.forall_update_iff regs fun _ b => b.Covered).mpr
        ⟨hiff.mpr (.inl hfits), fun r _ => hcov r⟩
    refine ⟨hcov', len_le_step hb, ?_, ?_, ?_⟩
    · rintro d nBits rfl
      cases hb
      show (Function.update regs d _ d).len.toNat = _
      rw [Function.update_self]
      exact (FasmBitset.toNat_len_grow_iff _ _).mpr hfits
    · rintro d nBits rfl idx hidx -
      cases hb
      show Gives Opcode.bitGet.into [.bitset (Function.update regs d _ d), _] _
      rw [Function.update_self]
      exact gives_get_grown (hcov d) _ hidx
    · intro r r' hbits hlen
      rw [(hcov' r).ext (hcov' r') hbits hlen]
      exact (gives_eq _ _).of_eq (congrArg (fun x => Except.ok (Value.bool x)) (eqVal_bitset _))

/-! ## Runs -/

/-- A run of instructions on bitsets that start empty. -/
abbrev Trace (σ : Nat → ι → FasmBitset) (ev : Nat → BitOp ι) (n : Nat) : Prop :=
  IsTrace (· = fun _ => .empty) (fun regs op regs' => op.step regs = .ok regs') σ ev n

/-- In a run whose steps fit all bitsets are covered. -/
theorem Trace.covered {σ : Nat → ι → FasmBitset} {ev : Nat → BitOp ι} {n : Nat}
    (h : Trace σ ev n) (hfits : ∀ i < n, (ev i).Fits (σ i)) (r : ι) : (σ n r).Covered := by
  refine h.invariant_of (P := fun regs => ∀ r, (regs r).Covered)
    (C := fun regs op => op.Fits regs) ?_ ?_ hfits r
  · rintro _ rfl _
    exact FasmBitset.covered_empty
  · intro regs op regs' hstep hfits hcov
    exact ((keepsLength_iff hstep hcov).mpr hfits).covered

/-- In a run whose steps keep the lengths right they are. -/
theorem Trace.covered_of_keepsLength {σ : Nat → ι → FasmBitset} {ev : Nat → BitOp ι} {n : Nat}
    (h : Trace σ ev n) (hkeeps : ∀ i < n, (ev i).KeepsLength (σ i) (σ (i + 1))) (r : ι) :
    (σ n r).Covered := by
  cases n with
  | zero =>
    rw [h.init]
    exact FasmBitset.covered_empty
  | succ n => exact (hkeeps n (Nat.lt_succ_self n)).covered r

end BitOp

/-- **The length of a bitset.**  In a run from empty bitsets every step keeps the lengths right
(they cover the bits and the bytes, none decreases, `BIT_GROW` adds its operand and positions that
read false, and `EQ` is equality of the bits and the length), if and only if every step fits. -/
theorem bitset_length_iff {ι : Type} [DecidableEq ι] {σ : Nat → ι → FasmBitset}
    {ev : Nat → BitOp ι} {n : Nat} (h : BitOp.Trace σ ev n) :
    (∀ i < n, (ev i).KeepsLength (σ i) (σ (i + 1))) ↔ ∀ i < n, (ev i).Fits (σ i) := by
  constructor
  · intro hkeeps i hi
    have hcov := BitOp.Trace.covered_of_keepsLength (h.le (Nat.le_of_lt hi)) fun j hj =>
      hkeeps j (Nat.lt_trans hj hi)
    exact (BitOp.keepsLength_iff (h.step i hi) hcov).mp (hkeeps i hi)
  · intro hfits i hi
    have hcov := BitOp.Trace.covered (h.le (Nat.le_of_lt hi)) fun j hj =>
      hfits j (Nat.lt_trans hj hi)
    exact (BitOp.keepsLength_iff (h.step i hi) hcov).mpr (hfits i hi)

/-- A bit, and a byte behind it. -/
def grownOps : Nat → BitOp Unit
  | 0 => .set () 3
  | _ => .grow () 12

/-- What is left of the empty bitset. -/
def grownBits : Nat → Unit → FasmBitset
  | 0 => fun _ => .empty
  | 1 => fun _ => ⟨[8], 4⟩
  | _ => fun _ => ⟨[8, 0], 16⟩

theorem bitset_length_grown : (grownOps 0).KeepsLength (grownBits 0) (grownBits 1) ∧
    (grownOps 1).KeepsLength (grownBits 1) (grownBits 2) := by
  have hrun : BitOp.Trace grownBits grownOps 2 := by
    refine ⟨rfl, fun i hi => ?_⟩
    match i, hi with
    | 0, _ => rfl
    | 1, _ => rfl
  have hkeeps := (bitset_length_iff hrun).mpr fun i hi => by
    match i, hi with
    | 0, _ => exact .inr (Nat.zero_le _)
    | 1, _ => exact show 4 + 12 < 2 ^ 32 by decide
  exact ⟨hkeeps 0 (by decide), hkeeps 1 (by decide)⟩

/-- Two bits of one byte. -/
def byteOps : Nat → BitOp Unit
  | 0 => .set () 0
  | _ => .set () 3

/-- The second one does not raise the length. -/
def byteBits : Nat → Unit → FasmBitset
  | 0 => fun _ => .empty
  | 1 => fun _ => ⟨[1], 1⟩
  | _ => fun _ => ⟨[9], 1⟩

theorem bitset_length_wrong : BitOp.Trace byteBits byteOps 2 ∧
    ¬ ∀ i < 2, (byteOps i).KeepsLength (byteBits i) (byteBits (i + 1)) := by
  constructor
  · refine ⟨rfl, fun i hi => ?_⟩
    match i, hi with
    | 0, _ => rfl
    | 1, _ => rfl
  · intro hkeeps
    have hcov := (hkeeps 1 (by decide)).covered ()
    exact absurd (hcov.lt_len 3 (by decide)) (by decide)

end Fasm
