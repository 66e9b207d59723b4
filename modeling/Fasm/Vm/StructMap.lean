import Fasm.Lib.HashMap
import Fasm.Vm.StructEquality

/-!
# Structs as maps

A `STRUCT` stands for a finite map from its keys.  Its lookups stop at the first entry with a key,
and its updates change that entry only, so it is a map as long as no key is there twice, which
`insert` and `remove` see to from the empty struct on.
-/

namespace Fasm

namespace FasmStruct

variable {s before after : List (U32 × Value)} {key k : U32} {val old : Value}

/-! ## Updates -/

theorem insert_cons_self (s : List (U32 × Value)) (key : U32) (old val : Value) :
    insert ((key, old) :: s) key val = (key, val) :: s := if_pos (beq_self_eq_true key)

theorem insert_cons_of_ne {e : U32 × Value} (h : e.1 ≠ key) (s : List (U32 × Value))
    (val : Value) : insert (e :: s) key val = e :: insert s key val :=
  if_neg fun hk => h (beq_iff_eq.mp hk)

theorem remove_cons_self (s : List (U32 × Value)) (key : U32) (old : Value) :
    remove ((key, old) :: s) key = s := List.eraseP_cons_of_pos (beq_self_eq_true key)

theorem remove_cons_of_ne {e : U32 × Value} (h : e.1 ≠ key) (s : List (U32 × Value)) :
    remove (e :: s) key = e :: remove s key :=
  List.eraseP_cons_of_neg fun hk => h (beq_iff_eq.mp hk)

theorem filter_cons_self (s : List (U32 × Value)) (key : U32) (old : Value) :
    (((key, old) :: s).filter fun e => e.1 != key) = s.filter fun e => e.1 != key :=
  List.filter_cons_of_neg fun hk => bne_iff_ne.mp hk rfl

theorem filter_cons_of_ne {e : U32 × Value} (h : e.1 ≠ key) (s : List (U32 × Value)) :
    ((e :: s).filter fun e => e.1 != key) = e :: s.filter fun e => e.1 != key :=
  List.filter_cons_of_pos (bne_iff_ne.mpr h)

/-- What is under a key after it or another one is set. -/
theorem get_insert (s : List (U32 × Value)) (key : U32) (val : Value) (k : U32) :
    get (insert s key val) k = if key = k then some val else get s k := by
  induction s with
  | nil => exact get_cons (key, val) [] k
  | cons e s ih =>
    obtain ⟨k', old⟩ := e
    by_cases hkey : k' = key
    · subst hkey
      rw [insert_cons_self, get_cons, get_cons]
      by_cases hk : k' = k
      · rw [if_pos hk, if_pos hk]
      · rw [if_neg hk, if_neg hk, if_neg hk]
    · rw [insert_cons_of_ne hkey, get_cons, get_cons, ih]
      by_cases hk : k' = k
      · rw [if_pos hk, if_pos hk, if_neg fun heq => hkey (hk.trans heq.symm)]
      · rw [if_neg hk, if_neg hk]

/-- If no key is there twice, all that is under a key is removed. -/
theorem remove_eq_filter (h : (s.map Prod.fst).Nodup) (key : U32) :
    remove s key = s.filter fun e => e.1 != key := by
  induction s with
  | nil => rfl
  | cons e s ih =>
    obtain ⟨k, old⟩ := e
    obtain ⟨hnot, hnodup⟩ := List.nodup_cons.mp h
    by_cases hkey : k = key
    · subst hkey
      have hrest : s.filter (fun e => e.1 != k) = s := by
        refine List.filter_eq_self.mpr fun e he => bne_iff_ne.mpr fun hk => hnot ?_
        exact List.mem_map.mpr ⟨e, he, hk⟩
      rw [remove_cons_self, filter_cons_self, hrest]
    · rw [remove_cons_of_ne hkey, filter_cons_of_ne hkey, ih hnodup]

theorem get_filter (s : List (U32 × Value)) (key k : U32) :
    get (s.filter fun e => e.1 != key) k = if key = k then none else get s k := by
  induction s with
  | nil => exact (ite_self none).symm
  | cons e s ih =>
    obtain ⟨k', old⟩ := e
    by_cases hkey : k' = key
    · subst hkey
      rw [filter_cons_self, ih, get_cons]
      by_cases hk : k' = k
      · rw [if_pos hk, if_pos hk]
      · rw [if_neg hk, if_neg hk, if_neg hk]
    · rw [filter_cons_of_ne hkey, get_cons, get_cons, ih]
      by_cases hk : k' = k
      · rw [if_pos hk, if_pos hk, if_neg fun heq => hkey (hk.trans heq.symm)]
      · rw [if_neg hk, if_neg hk]

/-- A field that is there keeps its place. -/
theorem insert_present (h : key ∉ before.map Prod.fst) :
    insert (before ++ (key, old) :: after) key val = before ++ (key, val) :: after := by
  induction before with
  | nil => exact insert_cons_self after key old val
  | cons e before ih =>
    obtain ⟨hne, hnot⟩ := not_or.mp (mt List.mem_cons.mpr h)
    rw [List.cons_append, insert_cons_of_ne (Ne.symm hne), ih hnot]
    rfl

/-! ## The map -/

/-- The struct stands for the map. -/
structure Represents (s : List (U32 × Value)) (m : HashMap U32 Value) : Prop where
  nodup : (s.map Prod.fst).Nodup
  get_eq : ∀ key, get s key = m.lookup key

namespace Represents

variable {m : HashMap U32 Value}

theorem nil : Represents [] ∅ where
  nodup := .nil
  get_eq key := by
    rw [Finmap.lookup_empty]
    rfl

theorem insert (h : Represents s m) (key : U32) (val : Value) :
    Represents (FasmStruct.insert s key val) (m.insert key val) where
  nodup := nodup_insert h.nodup key val
  get_eq k := by
    rw [get_insert, h.get_eq]
    by_cases hk : key = k
    · subst hk
      rw [if_pos rfl, Finmap.lookup_insert]
    · rw [if_neg hk, Finmap.lookup_insert_of_ne _ (Ne.symm hk)]

theorem remove (h : Represents s m) (key : U32) :
    Represents (FasmStruct.remove s key) (m.erase key) where
  nodup := nodup_remove h.nodup key
  get_eq k := by
    rw [remove_eq_filter h.nodup, get_filter, h.get_eq]
    by_cases hk : key = k
    · subst hk
      rw [if_pos rfl, Finmap.lookup_erase]
    · rw [if_neg hk, Finmap.lookup_erase_ne (Ne.symm hk)]

theorem containsKey_iff (h : Represents s m) (key : U32) :
    containsKey s key = true ↔ key ∈ m := by
  have hget : containsKey s key = (get s key).isSome := FasmMap.containsKey_eq s key
  rw [hget, h.get_eq, Finmap.lookup_isSome]

/-- Fields in front of a key that is there have other keys. -/
theorem notMem_before (h : Represents (before ++ (key, old) :: after) m) :
    key ∉ before.map Prod.fst := by
  have hnodup := h.nodup
  rw [List.map_append, List.map_cons, List.nodup_append] at hnodup
  exact fun hkey => hnodup.2.2 key hkey key List.mem_cons_self rfl

end Represents

end FasmStruct

namespace StructOp

/-- What becomes of the map. -/
def onMap (m : HashMap U32 Value) : StructOp → HashMap U32 Value
  | set key val => m.insert key val
  | del key => m.erase key

/-- The struct goes on to stand for the map. -/
theorem represents_step {s : List (U32 × Value)} {m : HashMap U32 Value}
    (h : FasmStruct.Represents s m) (op : StructOp) :
    FasmStruct.Represents (op.result s) (op.onMap m) := by
  cases op with
  | set key val => exact h.insert key val
  | del key => exact h.remove key

theorem represents_run {s : List (U32 × Value)} {m : HashMap U32 Value}
    (h : FasmStruct.Represents s m) (ops : List StructOp) :
    FasmStruct.Represents (ops.foldl result s) (ops.foldl onMap m) := by
  induction ops generalizing s m with
  | nil => exact h
  | cons op ops ih => exact ih (represents_step h op)

end StructOp

/-- **A struct is a finite map.**  After any sequence of `insert` and `remove`, from the empty
struct on. -/
theorem struct_is_map (ops : List StructOp) :
    let s := ops.foldl StructOp.result []
    let m := ops.foldl StructOp.onMap ∅
    (s.map Prod.fst).Nodup ∧ (∀ key, FasmStruct.get s key = m.lookup key) ∧
      (∀ key, FasmStruct.containsKey s key = true ↔ key ∈ m) ∧
      (∀ key, FasmStruct.remove s key = s.filter fun e => e.1 != key) ∧
      ∀ before key old after, s = before ++ (key, old) :: after →
        ∀ val, FasmStruct.insert s key val = before ++ (key, val) :: after := by
  intro s m
  have hrep : FasmStruct.Represents s m := StructOp.represents_run .nil ops
  refine ⟨hrep.nodup, hrep.get_eq, hrep.containsKey_iff,
    FasmStruct.remove_eq_filter hrep.nodup, ?_⟩
  intro before key old after hs val
  rw [hs] at hrep ⊢
  exact FasmStruct.insert_present hrep.notMem_before

/-! ## The instructions -/

section Instructions

variable {ω : Type} {host : Host ω} {p : Program} {e : Executor ω} {s : List (U32 × Value)}
  {op kop dst : Operand} {key : U32}

/-- An instruction that looks at a field. -/
theorem fieldGet_run {o : Opcode} (hs : e.readOperand op = .ok (.struct s))
    (hkey : e.readKeyOperand kop = .ok key) (f : List (U32 × Value) → U32 → Except Stop Value) :
    (fieldGet ⟨o, [op, kop, dst]⟩ f : ExecM ω Action) e = finish dst (f s key) e := by
  refine (getOp_bind_run rfl _).trans ?_
  refine (reads_bind_ok (f := fun e => e.readKeyOperand kop) hkey).trans ?_
  refine (val_bind_run rfl hs _).trans ?_
  exact finish_run rfl (f s key)

/-- The map that a sequence of `SET_FIELD` and `DEL_FIELD` makes. -/
def StructOp.mapAfter (ev : Nat → StructOp) : Nat → HashMap U32 Value
  | 0 => ∅
  | m + 1 => (ev m).onMap (mapAfter ev m)

theorem StructOp.Trace.represents {σ : Nat → List (U32 × Value)} {ev : Nat → StructOp} :
    ∀ {m : Nat}, StructOp.Trace σ ev m → FasmStruct.Represents (σ m) (StructOp.mapAfter ev m)
  | 0, h => by
    rw [show σ 0 = [] from h.1]
    exact .nil
  | m + 1, h => by
    have hprev : StructOp.Trace σ ev m := ⟨h.1, fun i hi => h.2 i (Nat.lt_succ_of_lt hi)⟩
    rw [does_iff.mp (h.2 m (Nat.lt_succ_self m))]
    exact represents_step hprev.represents (ev m)

/-- What `GET_FIELD` and `HAS_FIELD` find of a struct after any sequence of `SET_FIELD` and
`DEL_FIELD` is what is in the map. -/
theorem fields_of_trace {σ : Nat → List (U32 × Value)} {ev : Nat → StructOp} {m : Nat}
    (h : StructOp.Trace σ ev m) (hs : e.readOperand op = .ok (.struct (σ m)))
    (hkey : e.readKeyOperand kop = .ok key) :
    executeInstruction host p ⟨.getField, [op, kop, dst]⟩ e =
        finish dst (orFault ((StructOp.mapAfter ev m).lookup key) .fieldNotFound) e ∧
      executeInstruction host p ⟨.hasField, [op, kop, dst]⟩ e =
        finish dst (.ok (.bool (decide (key ∈ StructOp.mapAfter ev m)))) e := by
  have hrep := h.represents
  have hmem : FasmStruct.containsKey (σ m) key = decide (key ∈ StructOp.mapAfter ev m) := by
    rw [Bool.eq_iff_iff, hrep.containsKey_iff, decide_eq_true_iff]
  rw [← hrep.get_eq, ← hmem]
  exact ⟨fieldGet_run hs hkey fun s key => orFault (FasmStruct.get s key) .fieldNotFound,
    fieldGet_run hs hkey fun s key => .ok (.bool (FasmStruct.containsKey s key))⟩

end Instructions

end Fasm
