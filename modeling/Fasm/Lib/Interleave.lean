import Mathlib.Order.Lattice
import Mathlib.Data.List.Basic

/-!
# Merging two lists

An interleaving of two lists says of each element which of the two it comes from.  A merge by a
key is one, whatever the lists are.  If both are ascending it is ascending too, and stable: among
the elements with one key those of the first list come before those of the second.
-/

namespace Fasm

open List

variable {α κ : Type}

/-- Every element of `r` comes from `a` or from `b`, as `t` says, in the order that it has there. -/
structure Interleaves (a b r : List α) (t : List (α ⊕ α)) : Prop where
  forget : t.map (Sum.elim id id) = r
  left : t.filterMap Sum.getLeft? = a
  right : t.filterMap Sum.getRight? = b

/-- Nothing is lost and nothing is there twice. -/
theorem Interleaves.perm {a b r : List α} {t : List (α ⊕ α)} (h : Interleaves a b r t) :
    r.Perm (a ++ b) := by
  obtain ⟨rfl, rfl, rfl⟩ := h
  induction t with
  | nil => exact .nil
  | cons x t ih =>
    cases x with
    | inl x => exact ih.cons x
    | inr x => exact (ih.cons x).trans perm_middle.symm

/-! ## The merge of tagged lists -/

section Tagged

theorem getLeft?_map_inl (a : List α) :
    (a.map (Sum.inl : α → α ⊕ α)).filterMap Sum.getLeft? = a := by
  rw [filterMap_map]
  exact filterMap_some

theorem getRight?_map_inr (b : List α) :
    (b.map (Sum.inr : α → α ⊕ α)).filterMap Sum.getRight? = b := by
  rw [filterMap_map]
  exact filterMap_some

variable (le : α ⊕ α → α ⊕ α → Bool) (a b : List α)

/-- A merge of two lists whose elements know from which they are. -/
def mergeTagged : List (α ⊕ α) := (a.map Sum.inl).merge (b.map Sum.inr) le

theorem getLeft?_mergeTagged : (mergeTagged le a b).filterMap Sum.getLeft? = a := by
  unfold mergeTagged
  induction a generalizing b with
  | nil => simp [filterMap_map]
  | cons x a iha =>
    induction b with
    | nil =>
      rw [map_nil, merge_right]
      exact getLeft?_map_inl _
    | cons y b ihb =>
      rw [map_cons, map_cons, cons_merge_cons]
      split
      · exact congrArg (x :: ·) (iha (y :: b))
      · exact ihb

theorem getRight?_mergeTagged : (mergeTagged le a b).filterMap Sum.getRight? = b := by
  unfold mergeTagged
  induction a generalizing b with
  | nil =>
    rw [map_nil, nil_merge]
    exact getRight?_map_inr _
  | cons x a iha =>
    induction b with
    | nil => simp
    | cons y b ihb =>
      rw [map_cons, map_cons, cons_merge_cons]
      split
      · exact iha (y :: b)
      · exact congrArg (y :: ·) ihb

end Tagged

/-! ## By a key -/

variable [LinearOrder κ] (key : α → κ)

/-- An element may come before another one: it has the smaller key, or the same key and not the
later list. -/
def Before (x y : α ⊕ α) : Prop :=
  key (Sum.elim id id x) < key (Sum.elim id id y) ∨
    key (Sum.elim id id x) = key (Sum.elim id id y) ∧ (x.isRight → y.isRight)

instance (x y : α ⊕ α) : Decidable (Before key x y) := by unfold Before; infer_instance

theorem Before.le {x y : α ⊕ α} (h : Before key x y) :
    key (Sum.elim id id x) ≤ key (Sum.elim id id y) := h.elim le_of_lt fun h => h.1.le

theorem before_trans (x y z : α ⊕ α) (hxy : Before key x y) (hyz : Before key y z) :
    Before key x z := by
  rcases hxy with hxy | ⟨hxy, hside⟩
  · exact .inl (hxy.trans_le hyz.le)
  · rcases hyz with hyz | ⟨hyz, hside'⟩
    · exact .inl (hxy.trans_lt hyz)
    · exact .inr ⟨hxy.trans hyz, fun hx => hside' (hside hx)⟩

theorem before_total (x y : α ⊕ α) : Before key x y ∨ Before key y x := by
  rcases lt_trichotomy (key (Sum.elim id id x)) (key (Sum.elim id id y)) with hlt | heq | hgt
  · exact .inl (.inl hlt)
  · cases x with
    | inl x => exact .inl (.inr ⟨heq, fun h => nomatch h⟩)
    | inr x => exact .inr (.inr ⟨heq.symm, fun _ => rfl⟩)
  · exact .inr (.inl hgt)

/-- Between an element of the first list and one of the second the keys decide. -/
theorem before_inl_inr (x y : α) : Before key (.inl x) (.inr y) ↔ key x ≤ key y := by
  rw [le_iff_lt_or_eq]
  exact or_congr_right (and_iff_left fun _ => rfl)

/-- The tags of a merge. -/
theorem interleaves_merge (a b : List α) :
    Interleaves a b (a.merge b fun x y => key x ≤ key y)
      (mergeTagged (fun x y => Before key x y) a b) where
  forget := by
    unfold mergeTagged
    rw [map_merge (s := fun x y => decide (key x ≤ key y)), map_map, map_map]
    · congr 1 <;> exact map_id _
    · intro x hx y hy
      obtain ⟨x, -, rfl⟩ := mem_map.mp hx
      obtain ⟨y, -, rfl⟩ := mem_map.mp hy
      exact decide_eq_decide.mpr (before_inl_inr key x y)
  left := getLeft?_mergeTagged _ a b
  right := getRight?_mergeTagged _ a b

/-- A merge of ascending lists is stable. -/
theorem pairwise_mergeTagged {a b : List α} (ha : a.Pairwise fun x y => key x ≤ key y)
    (hb : b.Pairwise fun x y => key x ≤ key y) :
    (mergeTagged (fun x y => Before key x y) a b).Pairwise (Before key) := by
  have hmerge := @pairwise_merge _ (fun x y => decide (Before key x y))
    (fun x y z hxy hyz => decide_eq_true
      (before_trans key x y z (of_decide_eq_true hxy) (of_decide_eq_true hyz)))
    (fun x y => by
      rw [Bool.or_eq_true, decide_eq_true_iff, decide_eq_true_iff]
      exact before_total key x y)
    (a.map Sum.inl) (b.map Sum.inr) ?_ ?_
  · exact hmerge.imp of_decide_eq_true
  · refine pairwise_map.mpr (ha.imp fun h => decide_eq_true ?_)
    exact (le_iff_lt_or_eq.mp h).imp_right fun h => ⟨h, fun h => nomatch h⟩
  · refine pairwise_map.mpr (hb.imp fun h => decide_eq_true ?_)
    exact (le_iff_lt_or_eq.mp h).imp_right fun h => ⟨h, fun _ => rfl⟩

end Fasm
