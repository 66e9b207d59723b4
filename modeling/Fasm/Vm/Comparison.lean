import Fasm.Vm.Modular

/-!
# Comparisons

Integers and booleans of any two types are compared as `i64`.  That is a strict order of the
values up to equality, but it is the order of the integers only among those below `2 ^ 63`, and
among those from there on.
-/

namespace Fasm

/-- An integer as it is read from its pattern of 64 bits. -/
def readI64 (i : Int) : Int := if i < 2 ^ 63 then i else i - 2 ^ 64

/-! ## Integers as `i64` -/

/-- `numeric_as_i64` gives the pattern of the integer. -/
theorem numericAsI64_of_integer {v : Value} {i : Int} (h : v.integer = some i) :
    ∃ x, numericAsI64 v = some x ∧ x.toInt = readI64 i ∧ i < 2 ^ 64 := by
  cases v with
  | bool b =>
    cases h
    cases b <;> exact ⟨_, rfl, rfl, by decide⟩
  | int t n =>
    cases h
    show ∃ x, numericAsI64 (.int t n) = some x ∧ x.toInt = readI64 (t.toInt n) ∧
      t.toInt n < 2 ^ 64
    refine ⟨_, rfl, ?_⟩
    by_cases ht : t = .uint64
    · subst ht
      have hlt : n.toNat < 2 ^ 64 := n.isLt
      have hi : IntTy.toInt .uint64 n = n.toNat := rfl
      rw [toInt_asI64_uint64, hi, asSigned, readI64]
      omega
    · have hlt := toInt_lt ht n
      rw [toInt_asI64 hlt, readI64, if_pos hlt]
      exact ⟨rfl, by omega⟩
  | _ => cases h

/-! ## The six comparisons -/

/-- The comparisons say of two values what is so of two integers. -/
structure ComparesAs (a b : Value) (i j : Int) : Prop where
  eq : Gives Opcode.eq.into [a, b] (.ok (.bool (i = j)))
  neq : Gives Opcode.neq.into [a, b] (.ok (.bool (i ≠ j)))
  lt : Gives Opcode.lt.into [a, b] (.ok (.bool (i < j)))
  lte : Gives Opcode.lte.into [a, b] (.ok (.bool (i ≤ j)))
  gt : Gives Opcode.gt.into [a, b] (.ok (.bool (i > j)))
  gte : Gives Opcode.gte.into [a, b] (.ok (.bool (i ≥ j)))

variable {a b : Value} {i j : Int}

/-- They say what is so of the integers as they are read. -/
theorem comparesAs_readI64 (ha : a.integer = some i) (hb : b.integer = some j) :
    ComparesAs a b (readI64 i) (readI64 j) := by
  obtain ⟨x, hx, hxi, -⟩ := numericAsI64_of_integer ha
  obtain ⟨y, hy, hyj, -⟩ := numericAsI64_of_integer hb
  have heq : a.eqVal b = decide (readI64 i = readI64 j) := by
    have hxy : x = y ↔ readI64 i = readI64 j := by rw [← hxi, ← hyj, BitVec.toInt_inj]
    rw [Value.eqVal, hx, hy]
    exact Bool.eq_iff_iff.mpr (beq_iff_eq.trans (hxy.trans decide_eq_true_iff.symm))
  have hcmp (f g : U64 → U64 → Bool) :
      compared (numericCmp f g) a b = .ok (.bool (f x y)) := by
    rw [compared, numericCmp_number hx hy]
    rfl
  refine ⟨?_, ?_, ?_, ?_, ?_, ?_⟩
  · apply (gives_eq a b).of_eq
    rw [heq]
  · apply (gives_neq a b).of_eq
    rw [heq, decide_not]
  · apply (gives_lt a b).of_eq
    rw [← hxi, ← hyj]
    exact hcmp _ _
  · apply (gives_lte a b).of_eq
    rw [← hxi, ← hyj]
    exact hcmp _ _
  · apply (gives_gt a b).of_eq
    rw [← hxi, ← hyj]
    exact hcmp _ _
  · apply (gives_gte a b).of_eq
    rw [← hxi, ← hyj]
    exact hcmp _ _

/-- The comparisons of two values have one outcome. -/
theorem ComparesAs.iff {i' j' : Int} (h : ComparesAs a b i j) :
    ComparesAs a b i' j' ↔ (i = j ↔ i' = j') ∧ (i < j ↔ i' < j') := by
  constructor
  · intro h'
    have heq := h.eq.pair_iff.mp h'.eq
    have hlt := h.lt.pair_iff.mp h'.lt
    simp only [Except.ok.injEq, Value.bool.injEq, decide_eq_decide] at heq hlt
    exact ⟨heq, hlt⟩
  · rintro ⟨heq, hlt⟩
    refine ⟨h.eq.of_eq ?_, h.neq.of_eq ?_, h.lt.of_eq ?_, h.lte.of_eq ?_, h.gt.of_eq ?_,
      h.gte.of_eq ?_⟩
    all_goals
      simp only [Except.ok.injEq, Value.bool.injEq, decide_eq_decide]
      omega

/-- **Comparisons.**  The comparisons of integers and booleans of any two types say what is so of
the integers, exactly when both are below `2 ^ 63`, or both are not, or the one that is below is
also below what the other is read as. -/
theorem comparison_correct_iff (ha : a.integer = some i) (hb : b.integer = some j) :
    ComparesAs a b i j ↔ (i < 2 ^ 63 ∧ j < 2 ^ 63) ∨ (2 ^ 63 ≤ i ∧ 2 ^ 63 ≤ j) ∨
      (2 ^ 63 ≤ i ∧ j < i - 2 ^ 64) ∨ (2 ^ 63 ≤ j ∧ i < j - 2 ^ 64) := by
  obtain ⟨-, -, -, hi⟩ := numericAsI64_of_integer ha
  obtain ⟨-, -, -, hj⟩ := numericAsI64_of_integer hb
  rw [(comparesAs_readI64 ha hb).iff, readI64, readI64]
  omega

/-- Whatever the integers are, `EQ` is an equivalence of the values, and exactly one of `LT`, `EQ`
and `GT` holds, with `LT` transitive. -/
theorem comparison_order : ∃ r : Value → Int, ∀ a b : Value, a.integer.isSome → b.integer.isSome →
    ComparesAs a b (r a) (r b) := by
  refine ⟨fun v => readI64 (v.integer.getD 0), fun a b ha hb => ?_⟩
  obtain ⟨i, hi⟩ := Option.isSome_iff_exists.mp ha
  obtain ⟨j, hj⟩ := Option.isSome_iff_exists.mp hb
  simp only [hi, hj, Option.getD_some]
  exact comparesAs_readI64 hi hj

/-- Small integers of different types. -/
theorem comparison_correct_small : ComparesAs (.int .int8 0xFF#8) (.int .uint64 5#64) (-1) 5 :=
  (comparison_correct_iff rfl rfl).mpr (.inl (by decide))

/-- The largest integer of `UINT64` is less than zero. -/
theorem comparison_incorrect :
    Value.integer (.int .uint64 0xFFFFFFFFFFFFFFFF#64) = some (2 ^ 64 - 1) ∧
    Value.integer (.int .int32 0#32) = some 0 ∧
    Gives Opcode.lt.into [.int .uint64 0xFFFFFFFFFFFFFFFF#64, .int .int32 0#32]
      (.ok (.bool true)) ∧
    ¬ ComparesAs (.int .uint64 0xFFFFFFFFFFFFFFFF#64) (.int .int32 0#32) (2 ^ 64 - 1) 0 := by
  have hlt : Gives Opcode.lt.into [.int .uint64 0xFFFFFFFFFFFFFFFF#64, .int .int32 0#32]
      (.ok (.bool true)) := (gives_lt _ _).of_eq rfl
  refine ⟨rfl, rfl, hlt, fun h => ?_⟩
  have heq := hlt.pair_iff.mp h.lt
  simp at heq

end Fasm
