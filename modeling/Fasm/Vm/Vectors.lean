import Fasm.Lib.Interleave
import Fasm.Vm.Comparison
import Fasm.Vm.ResultTypes

/-!
# Sorting, merging and filtering vectors

`VEC_SORT` and `VEC_MERGE` compare by one key, the value as an `i64`, which is zero for what is not
an integer.  A merge is stable whatever it merges.  For integers the key is what `LT` compares,
so that both leave no element that is less than one before it.  Floats all have the same key, so
that they are not sorted at all.

`VEC_FILTER` has three tests, of which exactly one holds of any two integers.
-/

namespace Fasm

/-! ## Merging -/

/-- The loop of `VEC_MERGE`, with what was pushed so far; the two tails follow it. -/
def mergeLoop (va vb : List Value) (ai bi : Nat) (merged : List Value) : List Value :=
  if h : ai < va.length ∧ bi < vb.length then
    if sortKey va[ai] ≤ sortKey vb[bi] then mergeLoop va vb (ai + 1) bi (merged ++ [va[ai]])
    else mergeLoop va vb ai (bi + 1) (merged ++ [vb[bi]])
  else merged ++ va.drop ai ++ vb.drop bi
termination_by (va.length - ai) + (vb.length - bi)

/-- What the loop still has to do is to merge the rests. -/
theorem mergeLoop_eq (va vb : List Value) (ai bi : Nat) (merged : List Value) :
    mergeLoop va vb ai bi merged = merged ++ vecMerge (va.drop ai) (vb.drop bi) := by
  fun_induction mergeLoop va vb ai bi merged with
  | case1 ai bi merged h hle ih =>
    rw [ih, List.drop_eq_getElem_cons h.1, List.drop_eq_getElem_cons h.2, vecMerge, vecMerge,
      List.cons_merge_cons_pos _ _ _ (decide_eq_true hle), List.append_assoc]
    rfl
  | case2 ai bi merged h hle ih =>
    rw [ih, List.drop_eq_getElem_cons h.1, List.drop_eq_getElem_cons h.2, vecMerge, vecMerge,
      List.cons_merge_cons_neg _ _ _ (by simpa using hle), List.append_assoc]
    rfl
  | case3 ai bi merged h =>
    rw [List.append_assoc]
    congr 1
    by_cases hai : ai < va.length
    · rw [List.drop_eq_nil_of_le (by omega : vb.length ≤ bi), List.append_nil]
      exact (List.merge_right _).symm
    · rw [List.drop_eq_nil_of_le (by omega : va.length ≤ ai), List.nil_append]
      exact (List.nil_merge _).symm

theorem mergeLoop_zero (va vb : List Value) : mergeLoop va vb 0 0 [] = vecMerge va vb :=
  mergeLoop_eq va vb 0 0 []

theorem gives_vecMerge (a b : List Value) :
    Gives Opcode.vecMerge.into [.vec a, .vec b] (.ok (.vec (vecMerge a b))) :=
  (gives_binary (fun _ _ _ => rfl) (.vec a) (.vec b)).of_eq rfl

/-- The elements are in ascending order of their keys. -/
def Ascending (v : List Value) : Prop := v.Pairwise fun x y => sortKey x ≤ sortKey y

/-- A merge of ascending vectors is ascending. -/
theorem ascending_vecMerge {a b : List Value} (ha : Ascending a) (hb : Ascending b) :
    Ascending (vecMerge a b) := by
  have htags := interleaves_merge sortKey a b
  have hbefore := pairwise_mergeTagged sortKey ha hb
  rw [Ascending, vecMerge, ← htags.forget, List.pairwise_map]
  exact hbefore.imp fun h => h.le

/-- **Merging is stable.**  `VEC_MERGE` makes an interleaving of its two vectors.  If both are
ascending, the result is ascending, with the elements of the first vector before those of the
second that have the same key. -/
theorem vec_merge_stable (a b : List Value) : ∃ r t,
    Gives Opcode.vecMerge.into [.vec a, .vec b] (.ok (.vec r)) ∧ r = mergeLoop a b 0 0 [] ∧
    Interleaves a b r t ∧ r.Perm (a ++ b) ∧
    (Ascending a → Ascending b → Ascending r ∧ t.Pairwise (Before sortKey)) := by
  have htags := interleaves_merge sortKey a b
  refine ⟨vecMerge a b, _, gives_vecMerge a b, (mergeLoop_zero a b).symm, htags, htags.perm, ?_⟩
  exact fun ha hb => ⟨ascending_vecMerge ha hb, pairwise_mergeTagged sortKey ha hb⟩

/-! ## Sorting -/

section Sorting

variable {x y : Value} {v r a b : List Value} {t : FasmType}

/-- `VEC_SORT` may leave `r` of `v`: it does so on every host with some sort that is as it should
be. -/
def SortsTo (v r : List Value) : Prop :=
  ∃ sort : UnstableSort, ∀ (ω : Type) (host : Host ω) (p : Program) (e : Executor ω)
    (dst : Operand), host.sort = sort → e.target dst = .ok (.vec v) →
      executeInstruction host p ⟨.vecSort, [dst]⟩ e = replace dst (.ok (.vec r)) e

/-- The sort that leaves `r` of `v`, and sorts everything else as it likes. -/
noncomputable def UnstableSort.leaving (hperm : r.Perm v) (hasc : Ascending r) : UnstableSort where
  sort l := open Classical in if l = v then r else UnstableSort.stable.sort l
  perm l := by
    split
    case isTrue h => exact h ▸ hperm
    case isFalse => exact UnstableSort.stable.perm l
  sorted l := by
    split
    case isTrue => exact hasc
    case isFalse => exact UnstableSort.stable.sorted l

theorem vecSort_run {ω : Type} {e : Executor ω} {dst : Operand} (host : Host ω) (p : Program)
    (h : e.target dst = .ok (.vec v)) : executeInstruction host p ⟨.vecSort, [dst]⟩ e =
      replace dst (.ok (.vec (host.sort.sort v))) e := by
  refine (getOp_bind_run rfl _).trans ?_
  show EStateM.bind _ _ e = EStateM.bind _ _ e
  rw [EStateM.bind, writeTargetMut_target h]
  rfl

/-- Any ascending permutation may be left. -/
theorem sortsTo_iff : SortsTo v r ↔ r.Perm v ∧ Ascending r := by
  constructor
  · rintro ⟨sort, h⟩
    have htarget : (showing [.vec v]).target (.slot (.local_ 0)) = .ok (.vec v) := rfl
    have hrun := vecSort_run ⟨fun _ => none, none, sort⟩ ⟨1, [], []⟩ htarget
    have heq := replace_local_inj (hrun.symm.trans (h Unit _ ⟨1, [], []⟩ _ _ rfl htarget))
    injection heq with heq
    injection heq with heq
    exact heq ▸ ⟨sort.perm v, sort.sorted v⟩
  · rintro ⟨hperm, hasc⟩
    refine ⟨.leaving hperm hasc, fun ω host p e dst hsort hdst => ?_⟩
    have hleft : (UnstableSort.leaving hperm hasc).sort v = r := if_pos rfl
    rw [vecSort_run host p hdst, hsort, hleft]

/-- `LT` finds the first value less than the second. -/
def Less (x y : Value) : Prop := Gives Opcode.lt.into [x, y] (.ok (.bool true))

/-- No element is less than one before it. -/
def LtSorted (v : List Value) : Prop := v.Pairwise fun x y => ¬ Less y x

/-- The types of integers and floats. -/
def FasmType.IsNumeric (t : FasmType) : Prop := (∃ i, t = .int i) ∨ t = .float32 ∨ t = .float64

theorem less_iff : Less x y ↔ x.cmpLt y = some true := by
  rw [Less, (gives_lt x y).pair_iff, compared]
  cases x.cmpLt y with
  | none => exact iff_of_false (by rintro ⟨⟩) (by rintro ⟨⟩)
  | some c =>
    constructor
    · intro h
      injection h with h
      injection h with h
      rw [h]
    · intro h
      injection h with h
      rw [h]
      rfl

/-! ### Integers -/

/-- Of integers `LT` compares the keys. -/
theorem less_iff_sortKey {i j : IntTy} (hx : x.fasmType = .int i) (hy : y.fasmType = .int j) :
    Less x y ↔ sortKey x < sortKey y := by
  have hint {z : Value} {i : IntTy} (hz : z.fasmType = .int i) : ∃ n, numericAsI64 z = some n := by
    cases z with
    | int t n => exact ⟨_, rfl⟩
    | _ => cases hz
  obtain ⟨m, hm⟩ := hint hx
  obtain ⟨n, hn⟩ := hint hy
  rw [less_iff, Value.cmpLt, numericCmp_number hm hn, sortKey, sortKey, hm, hn, Option.some_inj]
  exact BitVec.slt_iff_toInt_lt

theorem ltSorted_iff_ascending {i : IntTy} (hv : ∀ x ∈ v, x.fasmType = .int i) :
    LtSorted v ↔ Ascending v := by
  refine List.Pairwise.iff_of_mem fun {x y} hx hy => ?_
  rw [less_iff_sortKey (hv y hy) (hv x hx), not_lt]

/-! ### Floats -/

/-- No float is less than itself. -/
theorem f64Lt_self (n : U64) : f64Lt n n = false := by
  show ((f64OfBits n).unpack.compare (f64OfBits n).unpack == some .lt) = false
  cases (f64OfBits n).unpack with
  | notANumber => rfl
  | infinity s => cases s <;> rfl
  | zero s => rfl
  | finite s m e h =>
    have heq : (compare e e).then (compare m m) = .eq := by
      rw [show compare e e = .eq from Std.ReflCmp.compare_self,
        show compare m m = .eq from Std.ReflCmp.compare_self]
      rfl
    cases s with
    | positive =>
      show (some ((compare e e).then (compare m m)) == some .lt) = false
      rw [heq]
      rfl
    | negative =>
      show (some ((compare e e).then (compare m m)).swap == some .lt) = false
      rw [heq]
      rfl

/-- A float has no key but the default. -/
theorem sortKey_float (hx : x.fasmType = .float32 ∨ x.fasmType = .float64) : sortKey x = 0 := by
  cases x with
  | float32 f => rfl
  | float64 f => rfl
  | _ => rcases hx with hx | hx <;> cases hx

theorem not_less_self (hx : x.fasmType = .float32 ∨ x.fasmType = .float64) : ¬ Less x x := by
  rw [less_iff]
  cases x with
  | float32 f =>
    intro h
    cases (f64Lt_self _).symm.trans (Option.some_inj.mp h)
  | float64 f =>
    intro h
    cases (f64Lt_self _).symm.trans (Option.some_inj.mp h)
  | _ => rcases hx with hx | hx <;> cases hx

/-- Floats are ascending in any order. -/
theorem ascending_floats (hv : ∀ x ∈ v, x.fasmType = .float32 ∨ x.fasmType = .float64) :
    Ascending v := by
  refine List.pairwise_of_forall_mem_list fun x hx y hy => ?_
  rw [sortKey_float (hv x hx), sortKey_float (hv y hy)]

theorem exists_cons_perm (hx : x ∈ v) : ∃ rest, v.Perm (x :: rest) := by
  obtain ⟨front, back, rfl⟩ := List.append_of_mem hx
  exact ⟨front ++ back, List.perm_middle⟩

/-- Two elements of a list can be put first. -/
theorem exists_cons_cons_perm (hx : x ∈ v) (hy : y ∈ v) (hne : y ≠ x) :
    ∃ rest, v.Perm (x :: y :: rest) := by
  obtain ⟨rest, hrest⟩ := exists_cons_perm hx
  have hy : y ∈ rest := List.mem_of_ne_of_mem hne (hrest.subset hy)
  obtain ⟨rest', hrest'⟩ := exists_cons_perm hy
  exact ⟨rest', hrest.trans (hrest'.cons x)⟩

/-- Floats are left sorted if and only if none of them is less than another. -/
theorem sortsTo_floats (hv : ∀ x ∈ v, x.fasmType = .float32 ∨ x.fasmType = .float64) :
    (∀ r, SortsTo v r → LtSorted r) ↔ ∀ x ∈ v, ∀ y ∈ v, ¬ Less x y := by
  constructor
  · intro h x hx y hy hless
    have hne : x ≠ y := fun heq => not_less_self (hv x hx) (heq ▸ hless)
    obtain ⟨rest, hperm⟩ := exists_cons_cons_perm hy hx hne
    have hasc : Ascending (y :: x :: rest) :=
      ascending_floats fun z hz => hv z (hperm.symm.subset hz)
    have hsorted := h _ (sortsTo_iff.mpr ⟨hperm.symm, hasc⟩)
    exact List.rel_of_pairwise_cons hsorted List.mem_cons_self hless
  · intro h r hr
    have hperm := (sortsTo_iff.mp hr).1
    exact List.pairwise_of_forall_mem_list fun x hx y hy =>
      h y (hperm.subset hy) x (hperm.subset hx)

/-- A merge of floats puts the second vector behind the first. -/
theorem vecMerge_floats (ha : ∀ x ∈ a, x.fasmType = .float32 ∨ x.fasmType = .float64)
    (hb : ∀ x ∈ b, x.fasmType = .float32 ∨ x.fasmType = .float64) : vecMerge a b = a ++ b := by
  apply List.merge_of_le
  intro x y hx hy
  rw [sortKey_float (ha x hx), sortKey_float (hb y hy)]
  rfl

end Sorting

/-- **Sorting agrees with `LT` for integers, and not for floats.**  Of vectors whose elements have
one numeric type: `VEC_SORT` leaves no element less than one before it, if and only if the type is
one of integers or no element is less than another; and `VEC_MERGE` of two sorted ones, if and only
if the type is one of integers or no element of the second is less than one of the first. -/
theorem vec_sort_agrees_iff {t : FasmType} (ht : t.IsNumeric) :
    (∀ v : List Value, (∀ x ∈ v, x.fasmType = t) → ((∀ r, SortsTo v r → LtSorted r) ↔
      (∃ i, t = .int i) ∨ ∀ x ∈ v, ∀ y ∈ v, ¬ Less x y)) ∧
    ∀ a b : List Value, (∀ x ∈ a, x.fasmType = t) → (∀ x ∈ b, x.fasmType = t) →
      LtSorted a → LtSorted b →
      ((∃ r, Gives Opcode.vecMerge.into [.vec a, .vec b] (.ok (.vec r)) ∧ LtSorted r) ↔
        (∃ i, t = .int i) ∨ ∀ x ∈ a, ∀ y ∈ b, ¬ Less y x) := by
  have hmerge (a b : List Value) :
      (∃ r, Gives Opcode.vecMerge.into [.vec a, .vec b] (.ok (.vec r)) ∧ LtSorted r) ↔
        LtSorted (vecMerge a b) := by
    constructor
    · rintro ⟨r, hr, hsorted⟩
      have heq := (gives_vecMerge a b).pair_iff.mp hr
      injection heq with heq
      injection heq with heq
      rwa [heq]
    · exact fun h => ⟨_, gives_vecMerge a b, h⟩
  rcases ht with ⟨i, rfl⟩ | ht
  · constructor
    · intro v hv
      refine iff_of_true (fun r hr => ?_) (.inl ⟨i, rfl⟩)
      obtain ⟨hperm, hasc⟩ := sortsTo_iff.mp hr
      exact (ltSorted_iff_ascending fun x hx => hv x (hperm.subset hx)).mpr hasc
    · intro a b ha hb hsa hsb
      refine iff_of_true ((hmerge a b).mpr ?_) (.inl ⟨i, rfl⟩)
      have hab : ∀ x ∈ vecMerge a b, x.fasmType = .int i := fun x hx =>
        (List.mem_merge.mp hx).elim (ha x) (hb x)
      exact (ltSorted_iff_ascending hab).mpr (ascending_vecMerge
        ((ltSorted_iff_ascending ha).mp hsa) ((ltSorted_iff_ascending hb).mp hsb))
  · have hint : ¬ ∃ i, t = .int i := by
      rintro ⟨i, rfl⟩
      rcases ht with ht | ht <;> cases ht
    have hfloat {v : List Value} (hv : ∀ x ∈ v, x.fasmType = t) :
        ∀ x ∈ v, x.fasmType = .float32 ∨ x.fasmType = .float64 := fun x hx => hv x hx ▸ ht
    constructor
    · intro v hv
      rw [or_iff_right hint]
      exact sortsTo_floats (hfloat hv)
    · intro a b ha hb hsa hsb
      rw [hmerge, or_iff_right hint, vecMerge_floats (hfloat ha) (hfloat hb), LtSorted,
        List.pairwise_append]
      exact ⟨fun h => h.2.2, fun h => ⟨hsa, hsb, h⟩⟩

/-- One and minus one. -/
theorem vec_sort_agrees_int8 :
    SortsTo [.int .int8 1#8, .int .int8 0xFF#8] [.int .int8 0xFF#8, .int .int8 1#8] ∧
      LtSorted [.int .int8 0xFF#8, .int .int8 1#8] := by
  have hsorts : SortsTo [.int .int8 1#8, .int .int8 0xFF#8] [.int .int8 0xFF#8, .int .int8 1#8] :=
    sortsTo_iff.mpr ⟨.swap _ _ _, List.pairwise_pair.mpr (by decide)⟩
  have htype : ∀ x ∈ [Value.int .int8 1#8, .int .int8 0xFF#8], x.fasmType = .int .int8 := by
    intro x hx
    rcases List.mem_pair.mp hx with rfl | rfl <;> rfl
  have hagrees := (vec_sort_agrees_iff (t := .int .int8) (.inl ⟨.int8, rfl⟩)).1 _ htype
  exact ⟨hsorts, hagrees.mpr (.inl ⟨.int8, rfl⟩) _ hsorts⟩

/-- Two and one, as floats, are left as they are, by a sort and by a merge. -/
theorem vec_sort_disagrees :
    SortsTo [.float64 0x4000000000000000, .float64 0x3FF0000000000000]
      [.float64 0x4000000000000000, .float64 0x3FF0000000000000] ∧
    Gives Opcode.vecMerge.into [.vec [.float64 0x4000000000000000],
      .vec [.float64 0x3FF0000000000000]]
      (.ok (.vec [.float64 0x4000000000000000, .float64 0x3FF0000000000000])) ∧
    Less (.float64 0x3FF0000000000000) (.float64 0x4000000000000000) ∧
    ¬ LtSorted [.float64 0x4000000000000000, .float64 0x3FF0000000000000] := by
  have hfloat : ∀ x ∈ [Value.float64 0x4000000000000000, .float64 0x3FF0000000000000],
      x.fasmType = .float32 ∨ x.fasmType = .float64 := by
    intro x hx
    rcases List.mem_pair.mp hx with rfl | rfl <;> exact .inr rfl
  have hmerge : vecMerge [.float64 0x4000000000000000] [.float64 0x3FF0000000000000] = [_] ++ [_] :=
    vecMerge_floats (fun x hx => hfloat x (List.mem_of_mem_take (i := 1) hx))
      fun x hx => hfloat x (List.mem_of_mem_drop (i := 1) hx)
  have hless : Less (.float64 0x3FF0000000000000) (.float64 0x4000000000000000) :=
    less_iff.mpr (by decide)
  refine ⟨sortsTo_iff.mpr ⟨.refl _, ascending_floats hfloat⟩, ?_, hless, fun h => ?_⟩
  · exact (gives_vecMerge _ _).of_eq (congrArg (fun r => Except.ok (Value.vec r)) hmerge)
  · exact List.rel_of_pairwise_cons h (List.mem_singleton_self _) hless

/-! ## Filtering -/

/-- `VEC_FILTER` with the comparison `op` against `t` leaves `r` of `v`. -/
def FiltersTo (op : U8) (t : Value) (v r : List Value) : Prop :=
  ∀ k n, asU32 k = .ok n → n.setWidth 8 = op →
    Gives Opcode.vecFilter.into [.vec v, k, t] (.ok (.vec r))

theorem filtersTo (op : U8) (t : Value) (v : List Value) :
    FiltersTo op t v (v.filter (filterTest op t)) := by
  rintro k n hk rfl ω host p e srcs dst hread
  obtain ⟨x, y, z, hx, hy, hz, rfl⟩ := hread.three
  refine (val_bind_run rfl hx _).trans ?_
  refine (val_bind_run rfl hy _).trans ?_
  refine (reads_bind_ok (f := fun _ => asU32 k) hk).trans ?_
  refine (val_bind_run rfl hz _).trans ?_
  exact getOp_bind_run rfl _

/-- What the three tests say of two numbers. -/
theorem filterTest_number {x t : Value} {m n : U64} (hx : numericAsI64 x = some m)
    (ht : numericAsI64 t = some n) :
    filterTest 0 t x = decide (m.toInt < n.toInt) ∧
    filterTest 1 t x = decide (m.toInt = n.toInt) ∧
    filterTest 2 t x = decide (n.toInt < m.toInt) := by
  refine ⟨?_, ?_, ?_⟩
  · show (x.cmpLt t).getD false = _
    rw [Value.cmpLt, numericCmp_number hx ht]
    rfl
  · show x.eqVal t = _
    rw [Value.eqVal, hx, ht]
    exact Bool.eq_iff_iff.mpr (beq_iff_eq.trans (BitVec.toInt_inj.symm.trans
      decide_eq_true_iff.symm))
  · show (x.cmpGt t).getD false = _
    rw [Value.cmpGt, numericCmp_number hx ht]
    rfl

/-- Exactly one of three. -/
def ExactlyOne (p q r : Prop) : Prop := (p ∧ ¬ q ∧ ¬ r) ∨ (¬ p ∧ q ∧ ¬ r) ∨ (¬ p ∧ ¬ q ∧ r)

theorem filterTest_exactlyOne {x t : Value} (hx : x.integer.isSome) (ht : t.integer.isSome) :
    ExactlyOne (filterTest 0 t x = true) (filterTest 1 t x = true) (filterTest 2 t x = true) := by
  obtain ⟨i, hi⟩ := Option.isSome_iff_exists.mp hx
  obtain ⟨j, hj⟩ := Option.isSome_iff_exists.mp ht
  obtain ⟨m, hm, -⟩ := numericAsI64_of_integer hi
  obtain ⟨n, hn, -⟩ := numericAsI64_of_integer hj
  obtain ⟨h₀, h₁, h₂⟩ := filterTest_number hm hn
  rw [h₀, h₁, h₂, decide_eq_true_iff, decide_eq_true_iff, decide_eq_true_iff, ExactlyOne]
  omega

/-- Three tests of which exactly one holds of every element divide a list. -/
theorem filter_three_perm {α : Type} {p q r : α → Bool} {v : List α}
    (h : ∀ x ∈ v, ExactlyOne (p x = true) (q x = true) (r x = true)) :
    (v.filter p ++ v.filter q ++ v.filter r).Perm v := by
  induction v with
  | nil => exact .nil
  | cons x v ih =>
    have ih := ih fun y hy => h y (List.mem_cons_of_mem x hy)
    rcases h x List.mem_cons_self with ⟨hp, hq, hr⟩ | ⟨hp, hq, hr⟩ | ⟨hp, hq, hr⟩
    · rw [List.filter_cons_of_pos hp, List.filter_cons_of_neg hq, List.filter_cons_of_neg hr]
      exact ih.cons x
    · rw [List.filter_cons_of_neg hp, List.filter_cons_of_pos hq, List.filter_cons_of_neg hr,
        List.append_assoc, List.cons_append]
      rw [List.append_assoc] at ih
      exact List.perm_middle.trans (ih.cons x)
    · rw [List.filter_cons_of_neg hp, List.filter_cons_of_neg hq, List.filter_cons_of_pos hr]
      exact List.perm_middle.trans (ih.cons x)

/-- **Filtering partitions.**  Of integers and booleans of any types and a threshold that is an
integer, the results of `VEC_FILTER` for less, equal and greater keep the order, every element is
in exactly one of them, and together they are all that there was. -/
theorem vec_filter_partitions {v : List Value} {u : IntTy} (n : BitVec u.width)
    (hv : ∀ x ∈ v, x.integer.isSome) :
    ∃ r₀ r₁ r₂, FiltersTo 0 (.int u n) v r₀ ∧ FiltersTo 1 (.int u n) v r₁ ∧
      FiltersTo 2 (.int u n) v r₂ ∧ r₀.Sublist v ∧ r₁.Sublist v ∧ r₂.Sublist v ∧
      (∀ x ∈ v, ExactlyOne (x ∈ r₀) (x ∈ r₁) (x ∈ r₂)) ∧ (r₀ ++ r₁ ++ r₂).Perm v ∧
      r₀.length + r₁.length + r₂.length = v.length := by
  have hone : ∀ x ∈ v, ExactlyOne (filterTest 0 (.int u n) x = true)
      (filterTest 1 (.int u n) x = true) (filterTest 2 (.int u n) x = true) :=
    fun x hx => filterTest_exactlyOne (hv x hx) rfl
  have hperm := filter_three_perm hone
  refine ⟨_, _, _, filtersTo 0 _ v, filtersTo 1 _ v, filtersTo 2 _ v, List.filter_sublist,
    List.filter_sublist, List.filter_sublist, fun x hx => ?_, hperm, ?_⟩
  · simp only [List.mem_filter, hx, true_and]
    exact hone x hx
  · rw [← hperm.length_eq, List.length_append, List.length_append]

/-- The largest `UINT64` is less than zero here. -/
theorem vec_filter_partitions_max : ∃ r₀ r₁ r₂,
    FiltersTo 0 (.int .int8 0#8) [.bool false, .int .uint64 0xFFFFFFFFFFFFFFFF#64] r₀ ∧
    FiltersTo 1 (.int .int8 0#8) [.bool false, .int .uint64 0xFFFFFFFFFFFFFFFF#64] r₁ ∧
    FiltersTo 2 (.int .int8 0#8) [.bool false, .int .uint64 0xFFFFFFFFFFFFFFFF#64] r₂ ∧
    r₀.length + r₁.length + r₂.length = 2 := by
  obtain ⟨r₀, r₁, r₂, h₀, h₁, h₂, -, -, -, -, -, hlen⟩ := vec_filter_partitions
    (v := [.bool false, .int .uint64 0xFFFFFFFFFFFFFFFF#64]) (u := .int8) 0#8 (by
      intro x hx
      rcases List.mem_pair.mp hx with rfl | rfl <;> rfl)
  exact ⟨r₀, r₁, r₂, h₀, h₁, h₂, hlen⟩

end Fasm
