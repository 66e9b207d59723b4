import Fasm.Vm.ResultTypes

/-!
# The references in a value

A reference is an ordinary value: it is moved, put into collections and taken out of them
again.  But no instruction makes a reference out of something else, an `ADDR` and the
default of a `RESERVE` apart: whatever an instruction puts anywhere holds only references
that one of its operands held when it was read.
-/

namespace Fasm

open ExecM

variable {ω : Type} {α : Type}

/-- What a reference refers to: the slot of an index, a global or a local of whatever frame is
on top. -/
abbrev SlotAddress := Bool × U32

namespace Value

/-- The values directly inside of a value. -/
def children : Value → List Value
  | .vec l | .stack l | .queue l | .heapMin l | .heapMax l | .slice l | .deque l => l
  | .struct l | .sparse l | .btree l => l.map Prod.snd
  | .option o | .future o => o.toList
  | .result (.ok v) => [v]
  | _ => []

/-- What the value refers to, if it is a reference. -/
def reference : Value → Option SlotAddress
  | .refMut g i | .refImm g i => some (g, i)
  | _ => none

/-- The value is a reference to `r`, or there is one in it at some depth. -/
inductive Holds (r : SlotAddress) : Value → Prop
  | here {v : Value} (h : v.reference = some r) : Holds r v
  | inside {v c : Value} (hc : c ∈ v.children) (h : Holds r c) : Holds r v

/-- All references in the value are of `R`. -/
def RefsIn (R : SlotAddress → Prop) (v : Value) : Prop := ∀ r, Holds r v → R r

variable {R : SlotAddress → Prop} {v : Value}

theorem refsIn_iff :
    v.RefsIn R ↔ (∀ r, v.reference = some r → R r) ∧ ∀ c ∈ v.children, c.RefsIn R := by
  constructor
  · intro h
    exact ⟨fun r hr => h r (.here hr), fun c hc r hr => h r (.inside hc hr)⟩
  · rintro ⟨hself, hinside⟩ r hr
    cases hr with
    | here h => exact hself r h
    | inside hc h => exact hinside _ hc r h

/-- A value without parts that is no reference. -/
theorem refsIn_of_plain (hr : v.reference = none) (hc : v.children = []) : v.RefsIn R := by
  refine refsIn_iff.mpr ⟨?_, ?_⟩
  · rw [hr]
    exact nofun
  · rw [hc]
    exact nofun

/-- A value that is no reference has the references of its parts. -/
theorem refsIn_of_children (hr : v.reference = none) :
    v.RefsIn R ↔ ∀ c ∈ v.children, c.RefsIn R := by
  refine refsIn_iff.trans (and_iff_right ?_)
  rw [hr]
  exact nofun

@[simp] theorem refsIn_null : null.RefsIn R := refsIn_of_plain rfl rfl

@[simp] theorem refsIn_bool (b : Bool) : (bool b).RefsIn R := refsIn_of_plain rfl rfl

@[simp] theorem refsIn_int (t : IntTy) (n : BitVec t.width) : (int t n).RefsIn R :=
  refsIn_of_plain rfl rfl

@[simp] theorem refsIn_float32 (f : U32) : (float32 f).RefsIn R := refsIn_of_plain rfl rfl

@[simp] theorem refsIn_float64 (f : U64) : (float64 f).RefsIn R := refsIn_of_plain rfl rfl

@[simp] theorem refsIn_bitset (b : FasmBitset) : (bitset b).RefsIn R := refsIn_of_plain rfl rfl

@[simp] theorem refsIn_bitvec (b : FasmBitvec) : (bitvec b).RefsIn R := refsIn_of_plain rfl rfl

theorem refsIn_of_reference {r : SlotAddress} (hr : v.reference = some r) :
    v.RefsIn R ↔ R r := by
  have hc : v.children = [] := by cases v <;> first | rfl | cases hr
  refine refsIn_iff.trans ?_
  rw [hr, hc]
  constructor
  · intro h
    exact h.1 r rfl
  · intro h
    exact ⟨fun r' hr' => Option.some.inj hr' ▸ h, nofun⟩

@[simp] theorem refsIn_refMut (g : Bool) (i : U32) : (refMut g i).RefsIn R ↔ R (g, i) :=
  refsIn_of_reference rfl

@[simp] theorem refsIn_refImm (g : Bool) (i : U32) : (refImm g i).RefsIn R ↔ R (g, i) :=
  refsIn_of_reference rfl

section Collections

variable {l : List Value} {m : List (U32 × Value)} {c : Value}

@[simp] theorem refsIn_vec : (vec l).RefsIn R ↔ ∀ c ∈ l, c.RefsIn R := refsIn_of_children rfl

@[simp] theorem refsIn_stack : (stack l).RefsIn R ↔ ∀ c ∈ l, c.RefsIn R := refsIn_of_children rfl

@[simp] theorem refsIn_queue : (queue l).RefsIn R ↔ ∀ c ∈ l, c.RefsIn R := refsIn_of_children rfl

@[simp] theorem refsIn_slice : (slice l).RefsIn R ↔ ∀ c ∈ l, c.RefsIn R := refsIn_of_children rfl

@[simp] theorem refsIn_deque : (deque l).RefsIn R ↔ ∀ c ∈ l, c.RefsIn R := refsIn_of_children rfl

@[simp] theorem refsIn_heapMin : (heapMin l).RefsIn R ↔ ∀ c ∈ l, c.RefsIn R :=
  refsIn_of_children rfl

@[simp] theorem refsIn_heapMax : (heapMax l).RefsIn R ↔ ∀ c ∈ l, c.RefsIn R :=
  refsIn_of_children rfl

@[simp] theorem refsIn_struct : (struct m).RefsIn R ↔ ∀ e ∈ m, e.2.RefsIn R :=
  (refsIn_of_children rfl).trans List.forall_mem_map

@[simp] theorem refsIn_sparse : (sparse m).RefsIn R ↔ ∀ e ∈ m, e.2.RefsIn R :=
  (refsIn_of_children rfl).trans List.forall_mem_map

@[simp] theorem refsIn_btree : (btree m).RefsIn R ↔ ∀ e ∈ m, e.2.RefsIn R :=
  (refsIn_of_children rfl).trans List.forall_mem_map

@[simp] theorem refsIn_option_none : (option none).RefsIn R := refsIn_of_plain rfl rfl

@[simp] theorem refsIn_option_some : (option (some c)).RefsIn R ↔ c.RefsIn R :=
  (refsIn_of_children rfl).trans (List.forall_mem_singleton (p := RefsIn R))

@[simp] theorem refsIn_future_none : (future none).RefsIn R := refsIn_of_plain rfl rfl

@[simp] theorem refsIn_future_some : (future (some c)).RefsIn R ↔ c.RefsIn R :=
  (refsIn_of_children rfl).trans (List.forall_mem_singleton (p := RefsIn R))

@[simp] theorem refsIn_result_ok : (result (.ok c)).RefsIn R ↔ c.RefsIn R :=
  (refsIn_of_children rfl).trans (List.forall_mem_singleton (p := RefsIn R))

@[simp] theorem refsIn_result_error (n : U32) : (result (.error n)).RefsIn R :=
  refsIn_of_plain rfl rfl

end Collections

end Value

/-! ## Operations on values -/

section Operations

variable {R : SlotAddress → Prop} {a b c r x : Value} {l l' : List Value}
  {m : List (U32 × Value)}

open Value

theorem refsIn_immToValue (i : Immediate) : (immToValue i).RefsIn R := by
  cases i with
  | str s =>
    refine refsIn_vec.mpr fun c hc => ?_
    obtain ⟨b, -, rfl⟩ := List.mem_map.mp hc
    exact refsIn_int _ _
  | _ => simp [immToValue]

theorem refsIn_numericOp {f : U64 → U64 → Except Panic U64} {g : U64 → U64 → U64}
    (h : numericOp f g a b = .ok (some r)) : r.RefsIn R := by
  unfold numericOp at h
  split at h
  · split at h
    · obtain ⟨n, -, h⟩ := bind_eq_ok h
      cases h
      exact refsIn_int _ _
    · cases h
  · cases h
    exact refsIn_float32 _
  · cases h
    exact refsIn_float64 _
  · cases h

theorem refsIn_checked {f : Value → Value → Except Panic (Option Value)}
    (hf : ∀ a b r, f a b = .ok (some r) → r.RefsIn R) (h : checked f a b = .ok r) :
    r.RefsIn R := by
  obtain ⟨o, ho, h⟩ := bind_eq_ok h
  rw [orFault_eq_ok.mp h] at ho
  exact hf a b r (orPanic_eq_ok ho)

theorem refsIn_divChecked {f : Value → Value → Except Panic (Option Value)}
    (hf : ∀ a b r, f a b = .ok (some r) → r.RefsIn R) (h : divChecked f a b = .ok r) :
    r.RefsIn R := by
  unfold divChecked at h
  split at h
  · exact refsIn_checked hf h
  · cases h

theorem refsIn_compared {f : Value → Value → Option Bool} (h : compared f a b = .ok r) :
    r.RefsIn R := by
  obtain ⟨c, -, rfl⟩ := map_eq_ok h
  exact refsIn_bool c

theorem refsIn_bitwiseOp {f : U64 → U64 → U64} (h : bitwiseOp f a b = some r) : r.RefsIn R := by
  unfold bitwiseOp at h
  split at h
  · split at h <;> cases h
    exact refsIn_int _ _
  · cases h

theorem refsIn_neg (h : a.neg = some r) : r.RefsIn R := by
  unfold Value.neg at h
  split at h
  · split at h <;> cases h
    exact refsIn_int _ _
  · cases h
    exact refsIn_float32 _
  · cases h
    exact refsIn_float64 _
  · cases h

theorem refsIn_bitNot (h : a.bitNot = some r) : r.RefsIn R := by
  unfold Value.bitNot at h
  split at h <;> cases h
  exact refsIn_int _ _

theorem refsIn_shl {n : U32} (h : a.shl n = some r) : r.RefsIn R := by
  unfold Value.shl at h
  split at h
  · split at h <;> cases h
    exact refsIn_int _ _
  · cases h

theorem refsIn_shr {n : U32} (h : a.shr n = some r) : r.RefsIn R := by
  unfold Value.shr at h
  split at h
  · split at h <;> cases h
    exact refsIn_int _ _
  · cases h

theorem refsIn_shifted {f : Value → U32 → Option Value} (hf : ∀ n, f a n = some r → r.RefsIn R)
    (h : shifted f a b = .ok r) : r.RefsIn R := by
  obtain ⟨n, -, h⟩ := bind_eq_ok h
  exact hf n (orFault_eq_ok.mp h)

theorem refsIn_castValue {t : FasmType} (h : castValue a t = .ok r) : r.RefsIn R := by
  unfold castValue at h
  split at h
  · obtain ⟨n, -, rfl⟩ := Option.map_eq_some_iff.mp (orFault_eq_ok.mp h)
    exact refsIn_bool _
  · obtain ⟨n, -, rfl⟩ := Option.map_eq_some_iff.mp (orFault_eq_ok.mp h)
    exact refsIn_int _ _
  · obtain ⟨n, -, rfl⟩ := Option.map_eq_some_iff.mp (orFault_eq_ok.mp h)
    exact refsIn_float32 _
  · obtain ⟨n, -, rfl⟩ := Option.map_eq_some_iff.mp (orFault_eq_ok.mp h)
    exact refsIn_float64 _
  · cases h

theorem refsIn_lenOf (h : lenOf a = .ok r) : r.RefsIn R := by
  cases a <;> cases h <;> exact refsIn_int _ _

/-- The element that `GET_IDX` finds is one of the collection's. -/
theorem refsIn_getIdx (ha : a.RefsIn R) (h : getIdx a b = .ok r) : r.RefsIn R := by
  obtain ⟨n, -, h⟩ := bind_eq_ok h
  split at h
  · exact refsIn_vec.mp ha r (List.mem_of_getElem? (orFault_eq_ok.mp h))
  · exact refsIn_heapMin.mp ha r (List.mem_of_getElem? (orFault_eq_ok.mp h))
  · exact refsIn_heapMax.mp ha r (List.mem_of_getElem? (orFault_eq_ok.mp h))
  · exact refsIn_slice.mp ha r (List.mem_of_getElem? (orFault_eq_ok.mp h))
  · cases h

theorem refsIn_peek (ha : a.RefsIn R) (h : peek a = .ok r) : r.RefsIn R := by
  cases a with
  | stack l => exact refsIn_stack.mp ha r (List.mem_of_getLast? (orFault_eq_ok.mp h))
  | queue l => exact refsIn_queue.mp ha r (List.mem_of_mem_head? (orFault_eq_ok.mp h))
  | deque l => exact refsIn_deque.mp ha r (List.mem_of_mem_head? (orFault_eq_ok.mp h))
  | _ => cases h

theorem refsIn_peekBack (ha : a.RefsIn R) (h : peekBack a = .ok r) : r.RefsIn R := by
  cases a with
  | deque l => exact refsIn_deque.mp ha r (List.mem_of_getLast? (orFault_eq_ok.mp h))
  | _ => cases h

theorem forall_mem_vecMerge (hl : ∀ x ∈ l, x.RefsIn R) (hl' : ∀ x ∈ l', x.RefsIn R) :
    ∀ x ∈ vecMerge l l', x.RefsIn R := by
  intro x hx
  rcases List.mem_append.mp ((List.merge_perm_append _).mem_iff.mp hx) with hx | hx
  · exact hl x hx
  · exact hl' x hx

theorem refsIn_onBitset {f : FasmBitset → Except Panic FasmBitset} (h : onBitset a f = .ok r) :
    r.RefsIn R := by
  cases a with
  | bitset b =>
    obtain ⟨b', -, rfl⟩ := map_eq_ok h
    exact refsIn_bitset b'
  | _ => cases h

theorem refsIn_onBitsets {f : FasmBitset → FasmBitset → FasmBitset}
    (h : onBitsets f a b = .ok r) : r.RefsIn R := by
  unfold onBitsets at h
  split at h <;> cases h
  exact refsIn_bitset _

theorem refsIn_onBitvec {f : FasmBitvec → Except Panic FasmBitvec} (h : onBitvec a f = .ok r) :
    r.RefsIn R := by
  cases a with
  | bitvec b =>
    obtain ⟨b', -, rfl⟩ := map_eq_ok h
    exact refsIn_bitvec b'
  | _ => cases h

/-- A key's value is one of the collection's. -/
theorem refsIn_of_get {key : U32} (hm : ∀ e ∈ m, e.2.RefsIn R)
    (h : FasmMap.get m key = some x) : x.RefsIn R := by
  obtain ⟨e, he, rfl⟩ := Option.map_eq_some_iff.mp h
  exact hm e (List.mem_of_find?_eq_some he)

theorem forall_mem_structInsert {key : U32} (hm : ∀ e ∈ m, e.2.RefsIn R) (hx : x.RefsIn R) :
    ∀ e ∈ FasmStruct.insert m key x, e.2.RefsIn R := by
  induction m with
  | nil =>
    intro e he
    obtain rfl := List.mem_singleton.mp he
    exact hx
  | cons e₀ m ih =>
    obtain ⟨he₀, hm⟩ := List.forall_mem_cons.mp hm
    unfold FasmStruct.insert
    split
    · exact List.forall_mem_cons.mpr ⟨hx, hm⟩
    · exact List.forall_mem_cons.mpr ⟨he₀, ih hm⟩

theorem forall_mem_mapInsert {key : U32} (hm : ∀ e ∈ m, e.2.RefsIn R) (hx : x.RefsIn R) :
    ∀ e ∈ FasmMap.insert m key x, e.2.RefsIn R := by
  induction m with
  | nil =>
    intro e he
    obtain rfl := List.mem_singleton.mp he
    exact hx
  | cons e₀ m ih =>
    obtain ⟨he₀, hm'⟩ := List.forall_mem_cons.mp hm
    unfold FasmMap.insert
    split
    · exact List.forall_mem_cons.mpr ⟨hx, hm⟩
    · split
      · exact List.forall_mem_cons.mpr ⟨hx, hm'⟩
      · exact List.forall_mem_cons.mpr ⟨he₀, ih hm'⟩

theorem forall_mem_remove {key : U32} (hm : ∀ e ∈ m, e.2.RefsIn R) :
    ∀ e ∈ FasmMap.remove m key, e.2.RefsIn R :=
  fun e he => hm e (List.mem_of_mem_eraseP he)

/-- The element taken out of a collection and what is left of it. -/
theorem forall_mem_popLast {l : List Value} (hl : ∀ x ∈ l, x.RefsIn R)
    (h : popLast l = .ok (x, l')) : x.RefsIn R ∧ ∀ y ∈ l', y.RefsIn R := by
  obtain ⟨y, hy, h⟩ := bind_eq_ok h
  cases h
  refine ⟨hl _ (List.mem_of_getLast? (orFault_eq_ok.mp hy)), ?_⟩
  intro y hy
  exact hl y (List.dropLast_subset l hy)

theorem forall_mem_popFront {l : List Value} (hl : ∀ x ∈ l, x.RefsIn R)
    (h : popFront l = .ok (x, l')) : x.RefsIn R ∧ ∀ y ∈ l', y.RefsIn R := by
  obtain ⟨y, hy, h⟩ := bind_eq_ok h
  cases h
  refine ⟨hl _ (List.mem_of_mem_head? (orFault_eq_ok.mp hy)), ?_⟩
  intro y hy
  exact hl y (List.mem_of_mem_tail hy)

end Operations

end Fasm
