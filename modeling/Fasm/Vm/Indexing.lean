import Fasm.Vm.BitsetLength
import Fasm.Vm.Modular

/-!
# Index operands

`as_u32` takes the positions, keys and lengths of some twenty operations from operands of eight
integer types.  An operand that represents a number of 32 bits, in whichever type, stands for
that number, and the operation acts there and nowhere else; only `VEC_SLICE` takes positions
behind the end, which it leaves out.
-/

namespace Fasm

/-! ## Maps -/

namespace FasmMap

variable {s : List (U32 × Value)} {key k : U32} {val : Value}

/-- The entries are in the order of their keys, which are all different. -/
def Sorted (s : List (U32 × Value)) : Prop := s.Pairwise fun e e' => e.1 < e'.1

@[simp] theorem get_nil : get [] key = none := rfl

theorem get_cons (e : U32 × Value) (s : List (U32 × Value)) (key : U32) :
    get (e :: s) key = if e.1 = key then some e.2 else get s key := by
  rw [get, List.find?_cons]
  by_cases h : e.1 = key
  · rw [if_pos h, beq_iff_eq.mpr h]
    rfl
  · rw [if_neg h, beq_eq_false_iff_ne.mpr h]
    rfl

/-- A key that no entry has. -/
theorem get_eq_none (h : ∀ e ∈ s, e.1 ≠ key) : get s key = none := by
  induction s with
  | nil => rfl
  | cons e s ih =>
    rw [get_cons, if_neg (h e List.mem_cons_self)]
    exact ih fun e' he' => h e' (List.mem_cons_of_mem _ he')

theorem containsKey_eq (s : List (U32 × Value)) (key : U32) :
    containsKey s key = (get s key).isSome := by
  induction s with
  | nil => rfl
  | cons e s ih =>
    rw [containsKey, List.any_cons, get_cons]
    by_cases h : e.1 = key
    · rw [if_pos h, beq_iff_eq.mpr h]
      rfl
    · rw [if_neg h, beq_eq_false_iff_ne.mpr h]
      exact ih

/-- `insert` changes what is found under its key, and nothing else. -/
theorem get_insert (s : List (U32 × Value)) (key : U32) (val : Value) :
    get (insert s key val) = Function.update (get s) key (some val) := by
  funext k
  rw [Function.update_apply]
  induction s with
  | nil => simp only [insert, get_cons, get_nil, eq_comm]
  | cons e s ih =>
    rw [insert]
    split
    · simp only [get_cons, eq_comm]
    · split
      case isTrue h =>
        obtain rfl : key = e.1 := beq_iff_eq.mp h
        simp only [get_cons]
        by_cases hk : k = e.1
        · rw [if_pos hk, if_pos hk.symm]
        · rw [if_neg hk, if_neg (Ne.symm hk), if_neg (Ne.symm hk)]
      case isFalse h =>
        have hne : key ≠ e.1 := fun heq => h (beq_iff_eq.mpr heq)
        rw [get_cons, ih, get_cons]
        by_cases hk : e.1 = k
        · rw [if_pos hk, if_pos hk, if_neg fun heq => hne (heq.symm.trans hk.symm)]
        · rw [if_neg hk, if_neg hk]

/-- So does `remove`. -/
theorem get_remove (h : Sorted s) (key : U32) :
    get (remove s key) = Function.update (get s) key none := by
  funext k
  rw [Function.update_apply]
  induction s with
  | nil => simp only [remove, List.eraseP_nil, get_nil, ite_self]
  | cons e s ih =>
    obtain ⟨hhead, htail⟩ := List.pairwise_cons.mp h
    rw [remove, List.eraseP_cons]
    by_cases hkey : e.1 = key
    · rw [beq_iff_eq.mpr hkey, cond_true, get_cons, hkey]
      by_cases hk : k = key
      · rw [if_pos hk, hk]
        apply get_eq_none
        intro e' he'
        exact fun heq => BitVec.lt_irrefl _ (heq.trans hkey.symm ▸ hhead e' he')
      · rw [if_neg hk, if_neg (Ne.symm hk)]
    · rw [beq_eq_false_iff_ne.mpr hkey, cond_false, get_cons, get_cons]
      by_cases hk : e.1 = k
      · rw [if_pos hk, if_pos hk, if_neg fun heq => hkey (hk.trans heq)]
      · rw [if_neg hk, if_neg hk]
        exact ih htail

/-- An entry after an insertion is the new one or an old one. -/
theorem mem_insert {e : U32 × Value} (h : e ∈ insert s key val) : e = (key, val) ∨ e ∈ s := by
  induction s with
  | nil => exact .inl (List.mem_singleton.mp h)
  | cons e' s ih =>
    rw [insert] at h
    split at h
    · exact List.mem_cons.mp h
    · split at h
      · exact (List.mem_cons.mp h).imp_right (List.mem_cons_of_mem _)
      · rcases List.mem_cons.mp h with rfl | h
        · exact .inr List.mem_cons_self
        · exact (ih h).imp_right (List.mem_cons_of_mem _)

theorem Sorted.insert (h : Sorted s) (key : U32) (val : Value) :
    Sorted (FasmMap.insert s key val) := by
  induction s with
  | nil => exact List.pairwise_singleton _ _
  | cons e s ih =>
    obtain ⟨hhead, htail⟩ := List.pairwise_cons.mp h
    rw [FasmMap.insert]
    split
    case isTrue hlt =>
      have hlt : key < e.1 := BitVec.ult_iff_lt.mp hlt
      refine List.pairwise_cons.mpr ⟨fun e' he' => ?_, h⟩
      rcases List.mem_cons.mp he' with rfl | he'
      · exact hlt
      · exact BitVec.lt_trans hlt (hhead e' he')
    case isFalse hlt =>
      split
      case isTrue heq =>
        obtain rfl : key = e.1 := beq_iff_eq.mp heq
        exact List.pairwise_cons.mpr ⟨hhead, htail⟩
      case isFalse hne =>
        refine List.pairwise_cons.mpr ⟨fun e' he' => ?_, ih htail⟩
        rcases mem_insert he' with rfl | he'
        · have hle : e.1 ≤ key := BitVec.not_lt.mp fun h => hlt (BitVec.ult_iff_lt.mpr h)
          exact BitVec.lt_of_le_ne hle fun h => hne (beq_iff_eq.mpr h.symm)
        · exact hhead e' he'

theorem Sorted.remove (h : Sorted s) (key : U32) : Sorted (FasmMap.remove s key) :=
  List.Pairwise.sublist List.eraseP_sublist h

end FasmMap

/-! ## What the operations do at a position -/

/-- The elements that `GET_IDX` reads. -/
def Value.indexed : Value → Option (List Value)
  | .vec v | .heapMin v | .heapMax v | .slice v => some v
  | _ => none

/-- The operand is of an integer type and represents `n`, which is in range. -/
structure IsIndex (k : Value) (n : Nat) : Prop where
  lt : n < 2 ^ 32
  int : ∃ (u : IntTy) (m : BitVec u.width), k = .int u m ∧ u.toInt m = n

/-- The operations of a kind of map act on the entry of key `n`. -/
structure ActsOnKey (mk : List (U32 × Value) → Value) (getOp hasOp setOp delOp : Opcode)
    (k : Value) (n : Nat) : Prop where
  get : ∀ s, Gives getOp.into [mk s, k] (orFault (FasmMap.get s (.ofNat 32 n)) .fieldNotFound)
  has : ∀ s, Gives hasOp.into [mk s, k] (.ok (.bool (FasmMap.get s (.ofNat 32 n)).isSome))
  set : ∀ s val, ∃ s', UpdatesTo setOp (mk s) [k, val] (.ok (mk s')) ∧
    FasmMap.get s' = Function.update (FasmMap.get s) (.ofNat 32 n) (some val) ∧
    (FasmMap.Sorted s → FasmMap.Sorted s')
  del : ∀ s, FasmMap.Sorted s → ∃ s', UpdatesTo delOp (mk s) [k] (.ok (mk s')) ∧
    FasmMap.get s' = Function.update (FasmMap.get s) (.ofNat 32 n) none ∧ FasmMap.Sorted s'

/-- The operations on a bitset act on bit `n`, where they do not panic. -/
structure ActsOnBit (k : Value) (n : Nat) : Prop where
  get : ∀ b : FasmBitset, Gives Opcode.bitGet.into [.bitset b, k] (.ok (.bool (n ∈ b.bits)))
  clr : ∀ b : FasmBitset, ∃ b', UpdatesTo .bitClr (.bitset b) [k] (.ok (.bitset b')) ∧
    b'.bits = b.bits.erase n
  set : ∀ b : FasmBitset, ∃ r, UpdatesTo .bitSet_ (.bitset b) [k] ((orPanic r).map .bitset) ∧
    ∀ b', r = .ok b' → b'.bits = insert n b.bits
  flip : ∀ b : FasmBitset, ∃ r, UpdatesTo .bitFlip (.bitset b) [k] ((orPanic r).map .bitset) ∧
    ∀ b', r = .ok b' → b'.bits = symmDiff b.bits {n}
  grow : ∀ b : FasmBitset, ∃ b', UpdatesTo .bitGrow (.bitset b) [k] (.ok (.bitset b')) ∧
    b'.bits = b.bits ∧ (b.len.toNat + n < 2 ^ 32 → b'.len.toNat = b.len.toNat + n)

/-- An operand acts as `n` wherever it is a position, a key or a length. -/
structure ActsAs (k : Value) (n : Nat) : Prop where
  getIdx : ∀ coll elems, coll.indexed = some elems →
    Gives Opcode.getIdx.into [coll, k] (orFault elems[n]? .indexOutOfBounds)
  setIdx : ∀ v val, UpdatesTo .setIdx (.vec v) [k, val]
    (if n < v.length then .ok (.vec (v.set n val)) else .error (.fault .indexOutOfBounds))
  vecSlice : ∀ v l m, IsIndex l m → Gives Opcode.vecSlice.into [.vec v, k, l]
    (.ok (.slice ((v.drop n).take m)))
  sparse : ActsOnKey .sparse .sparseGet .sparseHas .sparseSet .sparseDel k n
  btree : ActsOnKey .btree .btreeGet .btreeHas .btreeSet .btreeDel k n
  bitset : ActsOnBit k n

/-! ## The operand -/

section Operand

variable {k : Value} {n : Nat}

/-- `as_u32` reads the number. -/
theorem IsIndex.asU32 (h : IsIndex k n) : asU32 k = .ok (.ofNat 32 n) := by
  obtain ⟨u, m, rfl, hm⟩ := h.int
  rw [asU32_int, hm, BitVec.ofInt_natCast]

theorem IsIndex.toNat (h : IsIndex k n) : (BitVec.ofNat 32 n).toNat = n := by
  rw [BitVec.toNat_ofNat, Nat.mod_eq_of_lt h.lt]

/-! ## The operations -/

theorem getIdx_indexed {coll : Value} {elems : List Value} {i : U32}
    (hcoll : coll.indexed = some elems) (hk : asU32 k = .ok i) :
    getIdx coll k = orFault elems[i.toNat]? .indexOutOfBounds := by
  rw [getIdx, hk]
  cases coll with
  | vec v | heapMin v | heapMax v | slice v =>
    cases hcoll
    rfl
  | _ => cases hcoll

/-- A slice is what there is from its start on, up to its length. -/
theorem sliceOf_eq (v : List Value) (start len : Nat) :
    sliceOf v start len = (v.drop start).take len := by
  rw [sliceOf]
  split
  case isTrue h =>
    rw [List.drop_take, List.take_eq_take_iff, List.length_drop]
    omega
  case isFalse h =>
    rw [List.drop_eq_nil_of_le (by omega), List.take_nil]

/-- Both kinds of map: `f` gives an operation the entries of a map. -/
theorem actsOnKey {mk : List (U32 × Value) → Value} {getOp hasOp setOp delOp : Opcode}
    {f : Value → (List (U32 × Value) → Except Stop Value) → Except Stop Value}
    (hmap : ∀ s g, f (mk s) g = g s)
    (hget : ∀ {ω : Type} (host : Host ω) (p : Program) (operands : List Operand),
      executeInstruction host p ⟨getOp, operands⟩ = keyedGet ⟨getOp, operands⟩ fun coll key =>
        f coll fun s => orFault (FasmMap.get s key) .fieldNotFound)
    (hhas : ∀ {ω : Type} (host : Host ω) (p : Program) (operands : List Operand),
      executeInstruction host p ⟨hasOp, operands⟩ = keyedGet ⟨hasOp, operands⟩ fun coll key =>
        f coll fun s => .ok (.bool (FasmMap.containsKey s key)))
    (hset : ∀ {ω : Type} (host : Host ω) (p : Program) (operands : List Operand),
      executeInstruction host p ⟨setOp, operands⟩ = keyedSet ⟨setOp, operands⟩ fun coll key val =>
        f coll fun s => .ok (mk (FasmMap.insert s key val)))
    (hdel : ∀ {ω : Type} (host : Host ω) (p : Program) (operands : List Operand),
      executeInstruction host p ⟨delOp, operands⟩ = keyedMut ⟨delOp, operands⟩ fun coll key =>
        f coll fun s => .ok (mk (FasmMap.remove s key)))
    (h : IsIndex k n) : ActsOnKey mk getOp hasOp setOp delOp k n where
  get s := (gives_keyed hget h.asU32 (mk s)).of_eq (hmap _ _)
  has s := by
    apply (gives_keyed hhas h.asU32 (mk s)).of_eq
    rw [hmap, FasmMap.containsKey_eq]
  set s val := by
    have hupdates := updatesTo_keyedSet hset h.asU32 (mk s) val
    rw [hmap] at hupdates
    exact ⟨_, hupdates, FasmMap.get_insert s _ val, fun hs => hs.insert _ _⟩
  del s hs := by
    have hupdates := updatesTo_keyedMut hdel h.asU32 (mk s)
    rw [hmap] at hupdates
    exact ⟨_, hupdates, FasmMap.get_remove hs _, hs.remove _⟩

theorem actsOnKey_sparse (h : IsIndex k n) :
    ActsOnKey .sparse .sparseGet .sparseHas .sparseSet .sparseDel k n :=
  actsOnKey (f := onSparse) (fun _ _ => rfl) (fun _ _ _ => rfl) (fun _ _ _ => rfl)
    (fun _ _ _ => rfl) (fun _ _ _ => rfl) h

theorem actsOnKey_btree (h : IsIndex k n) :
    ActsOnKey .btree .btreeGet .btreeHas .btreeSet .btreeDel k n :=
  actsOnKey (f := onBTree) (fun _ _ => rfl) (fun _ _ _ => rfl) (fun _ _ _ => rfl)
    (fun _ _ _ => rfl) (fun _ _ _ => rfl) h

theorem actsOnBit (h : IsIndex k n) : ActsOnBit k n where
  get b := by
    apply (BitOp.gives_get h.asU32 b).of_eq
    rw [h.toNat]
  clr b := by
    refine ⟨_, BitOp.updatesTo_clr h.asU32 b, ?_⟩
    rw [FasmBitset.bits_clrBit, h.toNat]
  set b := by
    refine ⟨_, BitOp.updatesTo_set h.asU32 b, fun b' hb' => ?_⟩
    rw [FasmBitset.bits_setBit hb', h.toNat]
  flip b := by
    refine ⟨_, BitOp.updatesTo_flip h.asU32 b, fun b' hb' => ?_⟩
    rw [FasmBitset.bits_flipBit hb', h.toNat]
  grow b := by
    refine ⟨_, BitOp.updatesTo_grow h.asU32 b, FasmBitset.bits_growTo _ _, fun hlt => ?_⟩
    rw [(FasmBitset.toNat_len_grow_iff _ _).mpr (h.toNat.symm ▸ hlt), h.toNat]

end Operand

/-- **Index operands.**  An operand of any integer type that represents a number of 32 bits acts
as that number: `GET_IDX` and `SET_IDX` on that position if there is one, and they fault
otherwise, `VEC_SLICE` on the positions from there on that there are, the operations on maps on
that key and those on bitsets on that bit. -/
theorem indexing_in_range {k : Value} {n : Nat} (h : IsIndex k n) : ActsAs k n where
  getIdx coll elems hcoll := by
    refine (gives_binary (f := getIdx) (fun _ _ _ => rfl) coll k).of_eq ?_
    rw [getIdx_indexed hcoll h.asU32, h.toNat]
  setIdx v val := by
    have hset : UpdatesTo .setIdx (.vec v) [k, val] _ :=
      updatesTo_keyedSet (fun _ _ _ => rfl) h.asU32 (.vec v) val
    simp only [h.toNat] at hset
    exact hset
  vecSlice v l m hl := by
    refine (gives_vecSlice h.asU32 hl.asU32 v).of_eq ?_
    rw [sliceOf_eq, h.toNat, hl.toNat]
  sparse := actsOnKey_sparse h
  btree := actsOnKey_btree h
  bitset := actsOnBit h

theorem indexing_in_range_int16 : ActsAs (.int .int16 7#16) 7 :=
  indexing_in_range ⟨by decide, .int16, 7#16, rfl, rfl⟩

/-- An index of `2 ^ 32` reads element 0, and a slice may start at the end. -/
theorem indexing_wrong :
    Gives Opcode.getIdx.into [.vec [.null], .int .uint64 0x100000000#64] (.ok .null) ∧
    Gives Opcode.vecSlice.into [.vec [.null], .int .uint32 1#32, .int .uint32 1#32]
      (.ok (.slice [])) := by
  constructor
  · exact (gives_binary (f := getIdx) (fun _ _ _ => rfl) _ _).of_eq rfl
  · exact (gives_vecSlice rfl rfl [.null]).of_eq rfl

end Fasm
