import Mathlib.Algebra.BigOperators.Group.Finset.Basic
import Fasm.Vm.BitsetLength

/-!
# Bit vectors

A `BITVEC` is a row of bits with a length.  A field of up to 64 bits that is written is what a
read of the same field finds, and the other bits stay as they are, whatever bytes the field lies
across.  The bits from the length on are zeros, so that bit vectors with the same length and the
same bits are equal.

A read adds in 64 bits: where its field goes past the last position it wraps around to the first
ones.
-/

namespace Fasm

namespace FasmBitvec

variable {b b' : FasmBitvec} {s v : U64} {n : U32} {i p : Nat}

/-- The stored bit at a position, zero behind the last byte. -/
def bit (b : FasmBitvec) (p : Nat) : Bool := bitAt b.bytes p

theorem clamp_le (n : U32) : clamp n ≤ 64 := Nat.min_le_right _ _

/-! ## Reading -/

/-- A bit alone in 64. -/
theorem getLsbD_single (c : Bool) {k : Nat} (hk : k < 64) (i : Nat) :
    (if c then 1#64 <<< k else 0).getLsbD i = (decide (i = k) && c) := by
  cases c with
  | false => rw [Bool.and_false]; exact BitVec.getLsbD_zero
  | true =>
    rw [if_pos rfl, Bool.and_true, ← BitVec.twoPow_eq, BitVec.getLsbD_twoPow, decide_eq_true hk,
      Bool.true_and]
    exact decide_eq_decide.mpr eq_comm

/-- The bits that a loop sets one after the other. -/
theorem getLsbD_foldl_single (f : Nat → Bool) {k : Nat} (hk : k ≤ 64) (i : Nat) :
    ((List.range k).foldl (fun result i => result ||| (if f i then 1#64 <<< i else 0))
      0#64).getLsbD i = (decide (i < k) && f i) := by
  induction k with
  | zero => exact BitVec.getLsbD_zero
  | succ k ih =>
    rw [List.range_succ, List.foldl_concat, BitVec.getLsbD_or, ih (by omega),
      getLsbD_single _ (by omega)]
    by_cases hik : i = k
    · subst hik
      simp
    · have hlt : i < k + 1 ↔ i < k := by omega
      simp only [hik, hlt, decide_false, Bool.false_and, Bool.or_false]

/-- The stored bit that the loop of `read_bits` finds `i` positions behind the start. -/
def readBit (b : FasmBitvec) (s : U64) (i : Nat) : Bool := b.bit (s + .ofNat 64 i).toNat

/-- The loop of `read_bits`, by the bits that are stored. -/
theorem readBits_eq (b : FasmBitvec) (s : U64) (n : U32) : b.readBits s n =
    (List.range (clamp n)).foldl (fun result i =>
      result ||| (if b.readBit s i then 1#64 <<< i else 0)) 0#64 := by
  unfold readBits
  congr 1
  funext result i
  rw [readBit, bit, bitAt, wordAt]
  dsimp only
  cases b.bytes[(s + BitVec.ofNat 64 i).toNat / 8]? with
  | some byte => rfl
  | none =>
    show result = result ||| (if (0#8).getLsbD _ then _ else 0)
    rw [BitVec.getLsbD_zero]
    exact BitVec.or_zero.symm

/-- Bit `i` of what is read is the bit `i` positions behind the start, in 64 bits. -/
theorem getLsbD_readBits (b : FasmBitvec) (s : U64) (n : U32) (i : Nat) :
    (b.readBits s n).getLsbD i = (decide (i < clamp n) && b.readBit s i) := by
  rw [readBits_eq, getLsbD_foldl_single (b.readBit s) (clamp_le n)]

/-- The position of a bit, which wraps around. -/
theorem toNat_pos (s : U64) (hi : i ≤ 64) : (s + .ofNat 64 i).toNat = (s.toNat + i) % 2 ^ 64 := by
  rw [BitVec.toNat_add, BitVec.toNat_ofNat, Nat.mod_eq_of_lt (by omega : i < 2 ^ 64)]

/-! ## Writing -/

/-- One bit is written, and no other. -/
theorem bitAt_writeBit {bytes bytes' : List U8} (hi : i ≤ 64) (hpos : s.toNat + i < 2 ^ 64)
    (h : writeBit s v bytes i = .ok bytes') :
    bytes'.length = bytes.length ∧ ∀ p,
      bitAt bytes' p = if p = s.toNat + i then v.getLsbD i else bitAt bytes p := by
  have hnat : (s + .ofNat 64 i).toNat = s.toNat + i := by
    rw [toNat_pos s hi, Nat.mod_eq_of_lt hpos]
  have hlen := updateByte_length h
  obtain ⟨hlt, rfl⟩ := FasmBitset.updateByte_eq_ok h
  refine ⟨hlen, fun p => ?_⟩
  rw [hnat] at hlt ⊢
  rw [bitAt_modify (g := fun _ => v.getLsbD i) (by decide) (.inl hlt)]
  intro x m hm
  have hbit := FasmBitset.getLsbD_bit8 (Nat.mod_lt (s.toNat + i) (by decide : 0 < 8)) hm
  cases hv : v.getLsbD i with
  | true =>
    rw [if_pos rfl, BitVec.getLsbD_or, hbit]
    split <;> simp [*]
  | false =>
    rw [if_neg Bool.false_ne_true, BitVec.getLsbD_and, BitVec.getLsbD_not, hbit]
    split <;> simp [*]

/-- The first `k` bits are written, and no others. -/
theorem bitAt_writeLoop {bytes bytes' : List U8} {k : Nat} (hk : k ≤ 64)
    (hpos : s.toNat + k ≤ 2 ^ 64) (h : (List.range k).foldlM (writeBit s v) bytes = .ok bytes') :
    bytes'.length = bytes.length ∧ ∀ p, bitAt bytes' p =
      if s.toNat ≤ p ∧ p < s.toNat + k then v.getLsbD (p - s.toNat) else bitAt bytes p := by
  induction k generalizing bytes' with
  | zero =>
    cases h
    refine ⟨rfl, fun p => ?_⟩
    rw [if_neg (by omega)]
  | succ k ih =>
    rw [List.range_succ, List.foldlM_append] at h
    obtain ⟨bytes₁, hloop, h⟩ := bind_eq_ok h
    rw [List.foldlM_cons] at h
    obtain ⟨bytes₂, hlast, h⟩ := bind_eq_ok h
    cases h
    obtain ⟨hlen, hbits⟩ := ih (by omega) (by omega) hloop
    obtain ⟨hlen', hbits'⟩ := bitAt_writeBit (by omega) (by omega) hlast
    refine ⟨hlen'.trans hlen, fun p => ?_⟩
    rw [hbits', hbits]
    by_cases hp : p = s.toNat + k
    · rw [if_pos hp, if_pos (by omega), hp, Nat.add_sub_cancel_left]
    · have hiff : (s.toNat ≤ p ∧ p < s.toNat + (k + 1)) ↔ s.toNat ≤ p ∧ p < s.toNat + k := by omega
      rw [if_neg hp]
      simp only [hiff]

/-- The bytes of the bit vector fit the address space of a machine of 64 bits. -/
def Allocated (b : FasmBitvec) : Prop := b.bytes.length < 2 ^ 61

/-- What a write that completes leaves. -/
structure Written (b : FasmBitvec) (s : U64) (n : U32) (v : U64) (b' : FasmBitvec) : Prop where
  fits : s.toNat + clamp n < 2 ^ 64
  length_bytes : b'.bytes.length = max b.bytes.length (divCeil8 (s.toNat + clamp n))
  bitLen : b'.bitLen.toNat = max b.bitLen.toNat (s.toNat + clamp n)
  bit : ∀ p, b'.bit p =
    if s.toNat ≤ p ∧ p < s.toNat + clamp n then v.getLsbD (p - s.toNat) else b.bit p

theorem written_of_ok (hb : b.Allocated) (h : b.writeBits s n v = .ok b') : b.Written s n v b' := by
  have hfits : s.toNat + clamp n < 2 ^ 64 := by
    by_contra hwrap
    obtain ⟨x, hx⟩ := (writeBits_error b s n v).mpr ⟨Nat.le_of_not_lt hwrap, hb⟩
    exact nomatch hx.symm.trans h
  have hend : (s + .ofNat 64 (clamp n)).toNat = s.toNat + clamp n := by
    rw [toNat_pos s (clamp_le n), Nat.mod_eq_of_lt hfits]
  obtain ⟨bytes, hloop, h⟩ := bind_eq_ok h
  cases h
  obtain ⟨hlen, hbits⟩ := bitAt_writeLoop (clamp_le n) hfits.le hloop
  refine ⟨hfits, ?_, ?_, fun p => ?_⟩
  · rw [hlen, length_growBytes, hend]
  · have hult : b.bitLen.ult (s + .ofNat 64 (clamp n)) =
        decide (b.bitLen.toNat < s.toNat + clamp n) := by
      rw [← hend]
      rfl
    dsimp only
    rw [hult]
    by_cases hlt : b.bitLen.toNat < s.toNat + clamp n
    · rw [decide_eq_true hlt, if_pos rfl, hend, Nat.max_eq_right hlt.le]
    · rw [decide_eq_false hlt, if_neg Bool.false_ne_true, Nat.max_eq_left (Nat.le_of_not_lt hlt)]
  · exact (hbits p).trans (by rw [FasmBitset.bitAt_growBytes, bit])

/-! ## The padding -/

/-- As many bytes as the length needs, and zeros behind it. -/
structure Tidy (b : FasmBitvec) : Prop where
  length_bytes : b.bytes.length = divCeil8 b.bitLen.toNat
  bit : ∀ p, b.bitLen.toNat ≤ p → b.bit p = false

/-- A `BITVEC` as it is made. -/
def empty : FasmBitvec := ⟨[], 0⟩

theorem tidy_empty : empty.Tidy := ⟨rfl, fun _ _ => bitAt_nil⟩

/-- A write keeps the padding clear, since the field ends at the length or before it. -/
theorem Tidy.write (hb : b.Tidy) (h : b.Written s n v b') : b'.Tidy where
  length_bytes := by
    rw [h.length_bytes, h.bitLen, FasmBitset.divCeil8_max, hb.length_bytes]
  bit p hp := by
    rw [h.bitLen] at hp
    rw [h.bit, if_neg (by omega)]
    exact hb.bit p (by omega)

/-- With clear padding, the length and the bits are all that there is. -/
theorem Tidy.ext (hb : b.Tidy) (hb' : b'.Tidy) (hlen : b.bitLen = b'.bitLen)
    (hbit : ∀ p < b.bitLen.toNat, b.bit p = b'.bit p) : b = b' := by
  obtain ⟨bytes, len⟩ := b
  obtain ⟨bytes', len'⟩ := b'
  obtain rfl : len = len' := hlen
  have hbytes : bytes = bytes' := by
    apply eq_of_bitAt (hb.length_bytes.trans hb'.length_bytes.symm)
    intro p
    by_cases hp : p < len.toNat
    · exact hbit p hp
    · have hle : len.toNat ≤ p := Nat.le_of_not_lt hp
      exact (hb.bit p hle).trans (hb'.bit p hle).symm
  rw [hbytes]

/-! ## The instructions -/

theorem asU64_uint64 (n : U64) : asU64 (.uint64 n) = .ok n := rfl

theorem gives_read {ks kn : Value} (hs : asU64 ks = .ok s) (hn : asU32 kn = .ok n)
    (b : FasmBitvec) : Gives Opcode.bitvecRead.into [.bitvec b, ks, kn]
      (.ok (.uint64 (b.readBits s n))) := by
  intro ω host p e srcs dst hread
  obtain ⟨x, y, z, hx, hy, hz, rfl⟩ := hread.three
  refine (val_bind_run rfl hy _).trans ?_
  refine (reads_bind_ok (f := fun _ => asU64 ks) hs).trans ?_
  refine (val_bind_run rfl hz _).trans ?_
  refine (reads_bind_ok (f := fun _ => asU32 kn) hn).trans ?_
  refine (val_bind_run rfl hx _).trans ?_
  exact getOp_bind_run rfl _

/-- `BITVEC_READ` finds `r`, on any operands that are read as the start and the width. -/
def Reads (b : FasmBitvec) (s : U64) (n : U32) (r : U64) : Prop :=
  ∀ ks kn, asU64 ks = .ok s → asU32 kn = .ok n →
    Gives Opcode.bitvecRead.into [.bitvec b, ks, kn] (.ok (.uint64 r))

theorem reads_iff {r : U64} : b.Reads s n r ↔ b.readBits s n = r := by
  constructor
  · intro h
    have hgives := gives_read (asU64_uint64 s) (asU32_uint32 n) b
    have heq := (hgives.iff (Nat.le_of_ble_eq_true rfl)).mp (h _ _ (asU64_uint64 s)
      (asU32_uint32 n))
    injection heq with heq
    injection heq
  · rintro rfl ks kn hs hn
    exact gives_read hs hn b

theorem readBits_one (b : FasmBitvec) (p : U64) :
    b.readBits p 1 = if b.bit p.toNat then 1 else 0 := by
  have hpos : p + BitVec.ofNat 64 0 = p := BitVec.add_zero p
  rw [readBits_eq]
  show 0#64 ||| (if b.bit (p + BitVec.ofNat 64 0).toNat then 1#64 <<< 0 else 0) = _
  rw [hpos]
  exact BitVec.zero_or

/-- A read of one bit tells what it is. -/
theorem reads_one_iff (b : FasmBitvec) (p : U64) (c : Bool) :
    b.Reads p 1 (if c then 1 else 0) ↔ b.bit p.toNat = c := by
  rw [reads_iff, readBits_one]
  cases b.bit p.toNat <;> cases c <;> decide

theorem reads_one_congr {p : U64} :
    (∀ r, b.Reads p 1 r ↔ b'.Reads p 1 r) ↔ b.bit p.toNat = b'.bit p.toNat := by
  constructor
  · intro h
    have hread := (h _).mp ((b.reads_one_iff p (b.bit p.toNat)).mpr rfl)
    exact ((b'.reads_one_iff p (b.bit p.toNat)).mp hread).symm
  · intro h r
    rw [reads_iff, reads_iff, readBits_one, readBits_one, h]

/-! ## Reading back -/

/-- The first `k` bits of a number are its remainder. -/
theorem getLsbD_mod (v : U64) (k i : Nat) :
    (BitVec.ofNat 64 (v.toNat % 2 ^ k)).getLsbD i = (decide (i < k) && v.getLsbD i) := by
  rw [BitVec.getLsbD_ofNat, Nat.testBit_mod_two_pow]
  by_cases hi : i < 64
  · rw [decide_eq_true hi, Bool.true_and]
    rfl
  · rw [decide_eq_false hi, Bool.false_and, BitVec.getLsbD_of_ge v i (Nat.le_of_not_lt hi),
      Bool.and_false]

/-- The field that was written reads back. -/
theorem Written.readBits_self (h : b.Written s n v b') :
    b'.readBits s n = .ofNat 64 (v.toNat % 2 ^ clamp n) := by
  apply BitVec.eq_of_getLsbD_eq
  intro i hi
  rw [getLsbD_readBits, getLsbD_mod]
  by_cases hik : i < clamp n
  · have hpos : (s + .ofNat 64 i).toNat = s.toNat + i := by
      rw [toNat_pos s hi.le, Nat.mod_eq_of_lt (by have := h.fits; omega)]
    rw [readBit, hpos, h.bit, if_pos (by omega), Nat.add_sub_cancel_left]
  · rw [decide_eq_false hik, Bool.false_and, Bool.false_and]

/-- A field that ends before the one that is written reads as before. -/
theorem Written.readBits_before (h : b.Written s n v b') {s₁ : U64} {n₁ : U32}
    (hs : s₁.toNat + clamp n₁ ≤ s.toNat) : b'.readBits s₁ n₁ = b.readBits s₁ n₁ := by
  apply BitVec.eq_of_getLsbD_eq
  intro i hi
  rw [getLsbD_readBits, getLsbD_readBits]
  by_cases hik : i < clamp n₁
  · have hpos : (s₁ + .ofNat 64 i).toNat = s₁.toNat + i := by
      rw [toNat_pos s₁ hi.le, Nat.mod_eq_of_lt (by have := s.isLt; omega)]
    rw [readBit, readBit, hpos, h.bit, if_neg (by omega)]
  · rw [decide_eq_false hik, Bool.false_and, Bool.false_and]

/-- A field reads back from what a write of it leaves, and the rest reads as before. -/
structure ReadsBack (b : FasmBitvec) (s : U64) (n : U32) (v : U64) (b' : FasmBitvec) : Prop where
  field : b'.Reads s n (.ofNat 64 (v.toNat % 2 ^ clamp n))
  frame : ∀ p : U64, p.toNat < s.toNat ∨ s.toNat + clamp n ≤ p.toNat →
    ∀ r, b'.Reads p 1 r ↔ b.Reads p 1 r
  behind : ∀ p : U64, b.bitLen ≤ p → b.Reads p 1 0
  bitLen : b'.bitLen.toNat = max b.bitLen.toNat (s.toNat + clamp n)

theorem Written.readsBack (h : b.Written s n v b') (hb : b.Tidy) : b.ReadsBack s n v b' where
  field := reads_iff.mpr h.readBits_self
  frame p hp := by
    apply reads_one_congr.mpr
    rw [h.bit, if_neg (by omega)]
  behind p hp := (b.reads_one_iff p false).mpr (hb.bit p.toNat hp)
  bitLen := h.bitLen

theorem eqVal_iff : (Value.bitvec b).eqVal (.bitvec b') = true ↔ b = b' := by
  show (Value.bitvec b).beq (.bitvec b') = true ↔ b = b'
  rw [Value.beq]
  exact beq_iff_eq

/-- `EQ` of bit vectors with clear padding. -/
theorem gives_eq_iff (hb : b.Tidy) (hb' : b'.Tidy) :
    Gives Opcode.eq.into [.bitvec b, .bitvec b'] (.ok (.bool true)) ↔
      b.bitLen = b'.bitLen ∧ ∀ p < b.bitLen, ∀ r, b.Reads p 1 r ↔ b'.Reads p 1 r := by
  have hgives : Gives Opcode.eq.into [.bitvec b, .bitvec b'] (.ok (.bool true)) ↔ b = b' := by
    rw [(gives_eq _ _).pair_iff, ← eqVal_iff]
    constructor
    · intro h
      injection h with h
      injection h
    · intro h
      rw [h]
  rw [hgives]
  constructor
  · rintro rfl
    exact ⟨rfl, fun _ _ _ => Iff.rfl⟩
  · rintro ⟨hlen, hread⟩
    refine hb.ext hb' hlen fun p hp => ?_
    have hnat : (BitVec.ofNat 64 p).toNat = p := by
      have := b.bitLen.isLt
      rw [BitVec.toNat_ofNat, Nat.mod_eq_of_lt (by omega)]
    have hlt : BitVec.ofNat 64 p < b.bitLen := by
      rw [BitVec.lt_def, hnat]
      exact hp
    have hbit := reads_one_congr.mp (hread _ hlt)
    rwa [hnat] at hbit

end FasmBitvec

/-- An instruction that writes to a `BITVEC`. -/
inductive BitvecOp where
  | write (bitStart : U64) (bitLen : U32) (value : U64)
  | push (value : U64) (bitLen : U32)

namespace BitvecOp

open FasmBitvec

variable {b b' : FasmBitvec} {op : BitvecOp}

/-- The opcode. -/
def opcode : BitvecOp → Opcode
  | write .. => .bitvecWrite
  | push .. => .bitvecPush

/-- The operands after the target are read as the numbers. -/
inductive Args : BitvecOp → List Value → Prop
  | write {s n v ks kn kv} (hs : asU64 ks = .ok s) (hn : asU32 kn = .ok n)
      (hv : asU64 kv = .ok v) : Args (.write s n v) [ks, kn, kv]
  | push {v n kv kn} (hv : asU64 kv = .ok v) (hn : asU32 kn = .ok n) : Args (.push v n) [kv, kn]

theorem exists_args (op : BitvecOp) : ∃ args, op.Args args ∧ args.length < 256 := by
  cases op with
  | write s n v =>
    exact ⟨_, .write (asU64_uint64 s) (asU32_uint32 n) (asU64_uint64 v), Nat.le_of_ble_eq_true rfl⟩
  | push v n => exact ⟨_, .push (asU64_uint64 v) (asU32_uint32 n), Nat.le_of_ble_eq_true rfl⟩

/-- The first position of the field. -/
def bitStart (b : FasmBitvec) : BitvecOp → U64
  | write s _ _ => s
  | push _ _ => b.bitLen

/-- The width that is asked for. -/
def bitLen : BitvecOp → U32
  | write _ n _ | push _ n => n

/-- What is written to the field. -/
def value : BitvecOp → U64
  | write _ _ v | push v _ => v

/-- What becomes of the bit vector. -/
def result (b : FasmBitvec) (op : BitvecOp) : Except Panic FasmBitvec :=
  b.writeBits (op.bitStart b) op.bitLen op.value

theorem updatesTo {args : List Value} (h : op.Args args) (b : FasmBitvec) :
    UpdatesTo op.opcode (.bitvec b) args ((orPanic (op.result b)).map .bitvec) := by
  intro ω host p e srcs dst hc hread
  cases h with
  | write hs hn hv =>
    obtain ⟨x, y, z, hx, hy, hz, rfl⟩ := hread.three
    refine (val_bind_run rfl hx _).trans ?_
    refine (reads_bind_ok (f := fun _ => asU64 _) hs).trans ?_
    refine (val_bind_run rfl hy _).trans ?_
    refine (reads_bind_ok (f := fun _ => asU32 _) hn).trans ?_
    refine (val_bind_run rfl hz _).trans ?_
    refine (reads_bind_ok (f := fun _ => asU64 _) hv).trans ?_
    exact replace_run rfl hc fun coll => onBitvec coll fun bv => bv.writeBits _ _ _
  | push hv hn =>
    obtain ⟨x, y, hx, hy, rfl⟩ := hread.two
    refine (val_bind_run rfl hx _).trans ?_
    refine (reads_bind_ok (f := fun _ => asU64 _) hv).trans ?_
    refine (val_bind_run rfl hy _).trans ?_
    refine (reads_bind_ok (f := fun _ => asU32 _) hn).trans ?_
    exact replace_run rfl hc fun coll => onBitvec coll fun bv => bv.pushBits _ _

/-- The instruction completes: it makes `b'` of a target that is `b`.  A machine of 64 bits has no
room for 2^61 bytes, so that a larger one is never reached. -/
def Completes (b : FasmBitvec) (op : BitvecOp) (b' : FasmBitvec) : Prop :=
  b'.Allocated ∧ ∀ args, op.Args args → UpdatesTo op.opcode (.bitvec b) args (.ok (.bitvec b'))

theorem completes_iff : op.Completes b b' ↔ b'.Allocated ∧ op.result b = .ok b' := by
  refine and_congr_right fun _ => ⟨fun h => ?_, fun h args hargs => ?_⟩
  · obtain ⟨args, hargs, hlen⟩ := op.exists_args
    have heq := ((updatesTo hargs b).iff hlen).mp (h args hargs)
    cases hb : op.result b with
    | ok b₁ =>
      rw [hb] at heq
      cases heq
      rfl
    | error x =>
      rw [hb] at heq
      cases heq
  · have hupdates := updatesTo hargs b
    rw [h] at hupdates
    exact hupdates

theorem Completes.written (h : op.Completes b b') (hb : b.Allocated) :
    b.Written (op.bitStart b) op.bitLen op.value b' := written_of_ok hb (completes_iff.mp h).2

/-- A run of instructions on a bit vector that starts empty. -/
abbrev Trace (σ : Nat → FasmBitvec) (ev : Nat → BitvecOp) (m : Nat) : Prop :=
  IsTrace (· = empty) (fun b op b' => op.Completes b b') σ ev m

namespace Trace

variable {σ : Nat → FasmBitvec} {ev : Nat → BitvecOp} {m : Nat}

/-- Every bit vector of a run is small enough, and its padding is clear. -/
theorem tidy (h : Trace σ ev m) : (σ m).Allocated ∧ (σ m).Tidy := by
  refine h.isRun.invariant (P := fun b => b.Allocated ∧ b.Tidy) ?_ ?_
  · rintro _ rfl
    exact ⟨show 0 < 2 ^ 61 by decide, tidy_empty⟩
  · rintro b b' ⟨op, hop⟩ ⟨halloc, htidy⟩
    exact ⟨hop.1, htidy.write (hop.written halloc)⟩

/-- A step of a run writes one field. -/
theorem written (h : Trace σ ev m) {i : Nat} (hi : i < m) :
    (σ i).Written ((ev i).bitStart (σ i)) (ev i).bitLen (ev i).value (σ (i + 1)) :=
  (h.step i hi).written (tidy (h.le hi.le)).1

end Trace

end BitvecOp

namespace BitvecOp.Trace

open FasmBitvec

variable {σ : Nat → FasmBitvec} {ev : Nat → BitvecOp} {m : Nat} {v : Nat → U64} {n : Nat → U32}

/-- The position of the field of the `i`-th push. -/
def place (n : Nat → U32) (i : Nat) : Nat := ∑ j ∈ Finset.range i, clamp (n j)

theorem place_succ (n : Nat → U32) (i : Nat) : place n (i + 1) = place n i + clamp (n i) :=
  Finset.sum_range_succ _ _

theorem place_mono (n : Nat → U32) : Monotone (place n) :=
  monotone_nat_of_le_succ fun i => by
    rw [place_succ]
    exact Nat.le_add_right _ _

/-- After pushes only, the length is the sum of their widths, and every one reads back. -/
theorem pushes (h : Trace σ ev m) (hpush : ∀ i < m, ev i = .push (v i) (n i)) :
    (σ m).bitLen.toNat = place n m ∧ ∀ i < m, (σ m).readBits (.ofNat 64 (place n i)) (n i) =
      .ofNat 64 ((v i).toNat % 2 ^ clamp (n i)) := by
  induction m with
  | zero =>
    refine ⟨?_, fun i hi => absurd hi (Nat.not_lt_zero i)⟩
    rw [h.init]
    rfl
  | succ m ih =>
    have hm : m < m + 1 := Nat.lt_succ_self m
    obtain ⟨hlen, hreads⟩ := ih (h.le hm.le) fun i hi => hpush i (Nat.lt_succ_of_lt hi)
    have hwritten := written h hm
    rw [hpush m hm] at hwritten
    have hstart : (σ m).bitLen = .ofNat 64 (place n m) := by
      rw [← hlen, BitVec.ofNat_toNat, BitVec.setWidth_eq]
    refine ⟨?_, fun i hi => ?_⟩
    · have hnew := hwritten.bitLen
      rw [hnew, place_succ, ← hlen]
      exact Nat.max_eq_right (Nat.le_add_right _ _)
    · rcases Nat.lt_succ_iff_lt_or_eq.mp hi with hi | rfl
      · refine (hwritten.readBits_before ?_).trans (hreads i hi)
        have hle := place_mono n (show i + 1 ≤ m from hi)
        rw [place_succ] at hle
        have hlt := (σ m).bitLen.isLt
        rw [BitVec.toNat_ofNat, Nat.mod_eq_of_lt (by omega)]
        show _ ≤ (σ m).bitLen.toNat
        omega
      · have hself := hwritten.readBits_self
        rw [← hstart]
        exact hself

end BitvecOp.Trace

/-- **Fields of bits read back.**  Of the bit vector that a run of writes and pushes leaves: a
write of any field reads back and changes no other bit; if they were pushes, each of them reads
back behind those before it; and it is `EQ` to another if and only if their lengths and their
bits are. -/
theorem bitvec_reads_back {σ : Nat → FasmBitvec} {ev : Nat → BitvecOp} {m : Nat}
    (h : BitvecOp.Trace σ ev m) :
    (∀ s n v b', (BitvecOp.write s n v).Completes (σ m) b' → (σ m).ReadsBack s n v b') ∧
    (∀ (v : Nat → U64) (n : Nat → U32), (∀ i < m, ev i = .push (v i) (n i)) → ∀ i < m,
      (σ m).Reads (.ofNat 64 (∑ j ∈ Finset.range i, FasmBitvec.clamp (n j))) (n i)
        (.ofNat 64 ((v i).toNat % 2 ^ FasmBitvec.clamp (n i)))) ∧
    ∀ σ' ev' m', BitvecOp.Trace σ' ev' m' →
      (Gives Opcode.eq.into [.bitvec (σ m), .bitvec (σ' m')] (.ok (.bool true)) ↔
        (σ m).bitLen = (σ' m').bitLen ∧
          ∀ p < (σ m).bitLen, ∀ r, (σ m).Reads p 1 r ↔ (σ' m').Reads p 1 r) := by
  obtain ⟨halloc, htidy⟩ := BitvecOp.Trace.tidy h
  refine ⟨fun s n v b' hop => ?_, fun v n hpush i hi => ?_, fun σ' ev' m' h' => ?_⟩
  · exact (hop.written halloc).readsBack htidy
  · exact FasmBitvec.reads_iff.mpr ((BitvecOp.Trace.pushes h hpush).2 i hi)
  · exact FasmBitvec.gives_eq_iff htidy (BitvecOp.Trace.tidy h').2

/-- Two fields, the second of which lies in the byte where the first one ends. -/
def fieldOps : Nat → BitvecOp
  | 0 => .push 511 9
  | _ => .push 5 3

/-- What is left of the empty bit vector. -/
def fieldBits : Nat → FasmBitvec
  | 0 => .empty
  | 1 => ⟨[255, 1], 9⟩
  | _ => ⟨[255, 11], 12⟩

theorem bitvec_reads_back_fields : (fieldBits 2).Reads 0 9 511 ∧ (fieldBits 2).Reads 9 3 5 := by
  have hrun : BitvecOp.Trace fieldBits fieldOps 2 := by
    refine ⟨rfl, fun i hi => BitvecOp.completes_iff.mpr ?_⟩
    match i, hi with
    | 0, _ => exact ⟨show 2 < 2 ^ 61 by decide, rfl⟩
    | 1, _ => exact ⟨show 2 < 2 ^ 61 by decide, rfl⟩
  have hreads := (bitvec_reads_back hrun).2.1 (fun | 0 => 511 | _ => 5) (fun | 0 => 9 | _ => 3)
    fun i hi => by
      match i, hi with
      | 0, _ => rfl
      | 1, _ => rfl
  exact ⟨hreads 0 (by decide), hreads 1 (by decide)⟩

/-! ## Outside of the data -/

namespace FasmBitvec

/-- What a read should find: zeros from the length on. -/
def ReadsData (b : FasmBitvec) (s : U64) (n : U32) (r : U64) : Prop :=
  ∀ i < clamp n, r.getLsbD i = (decide (s.toNat + i < b.bitLen.toNat) && b.bit (s.toNat + i))

/-- No bit of the field is set behind the length, and where the field goes past the last position,
none of the first ones is. -/
structure ClearBehind (b : FasmBitvec) (s : U64) (n : U32) : Prop where
  padding : ∀ p, s.toNat ≤ p → p < s.toNat + clamp n → p < 2 ^ 64 → b.bitLen.toNat ≤ p →
    b.bit p = false
  wrapped : ∀ p, p + 2 ^ 64 < s.toNat + clamp n → b.bit p = false

theorem readsData_iff (b : FasmBitvec) (s : U64) (n : U32) :
    b.ReadsData s n (b.readBits s n) ↔ b.ClearBehind s n := by
  have hlen := b.bitLen.isLt
  have hs := s.isLt
  have hn := clamp_le n
  constructor
  · intro h
    refine ⟨fun p hsp hp hlt hle => ?_, fun p hp => ?_⟩
    · have hread := h (p - s.toNat) (by omega)
      rw [getLsbD_readBits, decide_eq_true (by omega : p - s.toNat < clamp n), Bool.true_and,
        decide_eq_false (by omega), Bool.false_and, readBit, toNat_pos s (by omega),
        Nat.mod_eq_of_lt (by omega)] at hread
      rwa [Nat.add_sub_cancel' hsp] at hread
    · have hread := h (p + 2 ^ 64 - s.toNat) (by omega)
      rw [getLsbD_readBits, decide_eq_true (by omega : p + 2 ^ 64 - s.toNat < clamp n),
        Bool.true_and, decide_eq_false (by omega), Bool.false_and, readBit,
        toNat_pos s (by omega)] at hread
      rwa [show (s.toNat + (p + 2 ^ 64 - s.toNat)) % 2 ^ 64 = p by omega] at hread
  · intro h i hi
    rw [getLsbD_readBits, decide_eq_true hi, Bool.true_and, readBit, toNat_pos s (by omega)]
    by_cases hwrap : s.toNat + i < 2 ^ 64
    · rw [Nat.mod_eq_of_lt hwrap]
      by_cases hin : s.toNat + i < b.bitLen.toNat
      · rw [decide_eq_true hin, Bool.true_and]
      · rw [decide_eq_false hin, Bool.false_and]
        exact h.padding _ (by omega) (by omega) hwrap (by omega)
    · rw [decide_eq_false (by omega), Bool.false_and]
      exact h.wrapped _ (by omega)

end FasmBitvec

/-- **Reading outside of the data.**  `BITVEC_READ` finds the bits of its field that are below the
length, and zeros otherwise, if and only if nothing is set behind the length, nor at the first
positions if the field goes past the last one. -/
theorem bitvec_read_outside_iff (b : FasmBitvec) (s : U64) (n : U32) :
    (∃ r, b.Reads s n r ∧ b.ReadsData s n r) ↔ b.ClearBehind s n := by
  rw [← b.readsData_iff s n]
  constructor
  · rintro ⟨r, hread, hdata⟩
    rwa [FasmBitvec.reads_iff.mp hread]
  · intro hdata
    exact ⟨_, FasmBitvec.reads_iff.mpr rfl, hdata⟩

/-- Two bits from the last position on: the second one that is read is the first bit. -/
theorem bitvec_read_outside_wrong : FasmBitvec.Reads ⟨[1], 1⟩ 0xFFFFFFFFFFFFFFFF 2 2 ∧
    ¬ ∃ r, FasmBitvec.Reads ⟨[1], 1⟩ 0xFFFFFFFFFFFFFFFF 2 r ∧
      FasmBitvec.ReadsData ⟨[1], 1⟩ 0xFFFFFFFFFFFFFFFF 2 r := by
  have hread : FasmBitvec.Reads ⟨[1], 1⟩ 0xFFFFFFFFFFFFFFFF 2 2 := FasmBitvec.reads_iff.mpr rfl
  refine ⟨hread, ?_⟩
  rintro ⟨r, hr, hdata⟩
  obtain rfl : r = 2 := (FasmBitvec.reads_iff.mp hr).symm.trans (FasmBitvec.reads_iff.mp hread)
  exact absurd (hdata 1 (by decide)) (by decide)

end Fasm
