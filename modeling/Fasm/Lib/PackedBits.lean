import Mathlib.Data.Nat.Count
import Mathlib.Algebra.GroupWithZero.Nat

/-!
# Packed bits

A list of words of `w` bits as one row of bits: bit `i` is bit `i % w` of word `i / w`, and the
bits behind the last word are zeros.  The set of the positions of its ones, and how many there
are.
-/

namespace Fasm

variable {w : Nat}

/-- Word `k` of a row, zero behind the last one. -/
def wordAt (words : List (BitVec w)) (k : Nat) : BitVec w := (words[k]?).getD 0

/-- Bit `i` of a row. -/
def bitAt (words : List (BitVec w)) (i : Nat) : Bool := (wordAt words (i / w)).getLsbD (i % w)

/-- The positions of the ones. -/
def bitSet (words : List (BitVec w)) : Finset Nat :=
  (Finset.range (w * words.length)).filter fun i => bitAt words i = true

variable {words words' : List (BitVec w)} {i j k : Nat}

@[simp] theorem wordAt_nil : wordAt ([] : List (BitVec w)) k = 0 := rfl

theorem wordAt_of_length_le (h : words.length ≤ k) : wordAt words k = 0 := by
  rw [wordAt, List.getElem?_eq_none h]
  rfl

@[simp] theorem bitAt_nil : bitAt ([] : List (BitVec w)) i = false := BitVec.getLsbD_zero

/-- A one is in one of the words. -/
theorem div_lt_of_bitAt (h : bitAt words i = true) : i / w < words.length := by
  by_contra hle
  rw [bitAt, wordAt_of_length_le (Nat.le_of_not_lt hle)] at h
  exact absurd (BitVec.getLsbD_zero.symm.trans h) Bool.false_ne_true

theorem mem_bitSet (hw : 0 < w) : i ∈ bitSet words ↔ bitAt words i = true := by
  rw [bitSet, Finset.mem_filter, Finset.mem_range]
  refine ⟨fun h => h.2, fun h => ⟨?_, h⟩⟩
  have hlt := div_lt_of_bitAt h
  rw [Nat.div_lt_iff_lt_mul hw] at hlt
  rwa [Nat.mul_comm]

/-- Rows of the same length with the same bits are the same. -/
theorem eq_of_bitAt (hlen : words.length = words'.length)
    (h : ∀ i, bitAt words i = bitAt words' i) : words = words' := by
  apply List.ext_getElem hlen
  intro k hk hk'
  ext m hm
  have hbit := h (w * k + m)
  have hdiv : (w * k + m) / w = k := by
    rw [Nat.mul_add_div (by omega), Nat.div_eq_of_lt hm, Nat.add_zero]
  have hmod : (w * k + m) % w = m := by rw [Nat.mul_add_mod, Nat.mod_eq_of_lt hm]
  rw [bitAt, bitAt, hdiv, hmod, wordAt, wordAt, List.getElem?_eq_getElem hk,
    List.getElem?_eq_getElem hk'] at hbit
  exact hbit

/-! ## Operations on words -/

/-- Words of zeros at the end change nothing. -/
@[simp] theorem wordAt_append_zeros (words : List (BitVec w)) (n k : Nat) :
    wordAt (words ++ List.replicate n 0) k = wordAt words k := by
  by_cases h : k < words.length
  · rw [wordAt, wordAt, List.getElem?_append_left h]
  · have hle := Nat.le_of_not_lt h
    rw [wordAt_of_length_le hle, wordAt, List.getElem?_append_right hle, List.getElem?_replicate]
    split <;> rfl

@[simp] theorem bitAt_append_zeros (words : List (BitVec w)) (n i : Nat) :
    bitAt (words ++ List.replicate n 0) i = bitAt words i := by
  rw [bitAt, wordAt_append_zeros, bitAt]

/-- An update of one word. -/
theorem wordAt_modify {f : BitVec w → BitVec w} (h : j < words.length ∨ f 0 = 0) (k : Nat) :
    wordAt (words.modify j f) k = if j = k then f (wordAt words k) else wordAt words k := by
  rw [wordAt, wordAt, List.getElem?_modify]
  by_cases hjk : j = k
  · subst hjk
    simp only [if_true]
    by_cases hj : j < words.length
    · rw [List.getElem?_eq_getElem hj]
      rfl
    · rw [List.getElem?_eq_none (Nat.le_of_not_lt hj)]
      exact (h.resolve_left hj).symm
  · simp only [if_neg hjk]
    cases words[k]? <;> rfl

/-- An update of one bit: the word that has it is changed there only. -/
theorem bitAt_modify {f : BitVec w → BitVec w} {g : Bool → Bool} (hw : 0 < w)
    (h : j / w < words.length ∨ f 0 = 0)
    (hf : ∀ x : BitVec w, ∀ m < w,
      (f x).getLsbD m = if m = j % w then g (x.getLsbD m) else x.getLsbD m) (i : Nat) :
    bitAt (words.modify (j / w) f) i = if i = j then g (bitAt words i) else bitAt words i := by
  rw [bitAt, wordAt_modify h, bitAt]
  by_cases hdiv : j / w = i / w
  · rw [if_pos hdiv, hf _ _ (Nat.mod_lt i hw)]
    have hiff : i % w = j % w ↔ i = j := by
      constructor
      · intro hmod
        rw [← Nat.div_add_mod i w, ← Nat.div_add_mod j w, hdiv, hmod]
      · rintro rfl
        rfl
    simp only [hiff]
  · rw [if_neg hdiv, if_neg]
    rintro rfl
    exact hdiv rfl

/-- Rows put together word by word. -/
theorem bitAt_of_wordAt {a b c : List (BitVec w)} {op : BitVec w → BitVec w → BitVec w}
    {g : Bool → Bool → Bool} (hw : 0 < w)
    (hop : ∀ x y : BitVec w, ∀ m < w, (op x y).getLsbD m = g (x.getLsbD m) (y.getLsbD m))
    (h : ∀ k, wordAt c k = op (wordAt a k) (wordAt b k)) (i : Nat) :
    bitAt c i = g (bitAt a i) (bitAt b i) := by
  rw [bitAt, h, hop _ _ _ (Nat.mod_lt i hw), bitAt, bitAt]

/-! ## How many ones -/

theorem wordAt_cons_add (word : BitVec w) (words : List (BitVec w)) (k : Nat) :
    wordAt (word :: words) (k + 1) = wordAt words k := rfl

/-- The first word, and the others behind it. -/
theorem bitAt_cons_of_lt (word : BitVec w) (words : List (BitVec w)) (h : i < w) :
    bitAt (word :: words) i = word.getLsbD i := by
  rw [bitAt, Nat.div_eq_of_lt h, Nat.mod_eq_of_lt h]
  rfl

theorem bitAt_cons_add (hw : 0 < w) (word : BitVec w) (words : List (BitVec w)) (i : Nat) :
    bitAt (word :: words) (w + i) = bitAt words i := by
  rw [bitAt, Nat.add_comm, Nat.add_div_right _ hw, Nat.add_mod_right, wordAt_cons_add, bitAt]

/-- The ones of the words together are the ones of the row. -/
theorem sum_ones_eq_card (hw : 0 < w) (words : List (BitVec w)) :
    (words.map fun word => ((List.range w).filter word.getLsbD).length).sum =
      (bitSet words).card := by
  have hcount (words : List (BitVec w)) :
      (bitSet words).card = Nat.count (fun i => bitAt words i = true) (w * words.length) :=
    (Nat.count_eq_card_filter_range _ _).symm
  rw [hcount]
  induction words with
  | nil => rfl
  | cons word words ih =>
    have hlen : w * (word :: words).length = w + w * words.length := by
      rw [List.length_cons, Nat.mul_succ, Nat.add_comm]
    rw [List.map_cons, List.sum_cons, ih, hlen, Nat.count_add]
    congr 1
    · rw [Nat.count, List.countP_eq_length_filter]
      congr 1
      apply List.filter_congr
      intro i hi
      rw [bitAt_cons_of_lt word words (List.mem_range.mp hi)]
      exact Bool.decide_eq_true.symm
    · congr 1
      funext i
      rw [bitAt_cons_add hw]

end Fasm
