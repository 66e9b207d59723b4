import Mathlib.Data.List.DropRight
import Mathlib.Data.List.TakeWhile

/-!
# Spans of a list

The longest part of a list whose elements all satisfy a predicate, at its beginning or at both of
its ends, and what is left without it.
-/

namespace Fasm

variable {α : Type} {p : α → Bool} {pre post rest l : List α}

theorem takeWhile_eq_nil_of_head? (h : ∀ c ∈ rest.head?, p c = false) : rest.takeWhile p = [] := by
  cases rest with
  | nil => rfl
  | cons c rest => exact List.takeWhile_cons_of_neg (Bool.eq_false_iff.mp (h c rfl))

theorem dropWhile_eq_self_of_head? (h : ∀ c ∈ rest.head?, p c = false) :
    rest.dropWhile p = rest := by
  cases rest with
  | nil => rfl
  | cons c rest => exact List.dropWhile_cons_of_neg (Bool.eq_false_iff.mp (h c rfl))

/-- What is taken is the part in front of the first element without `p`. -/
theorem takeWhile_append_of_head? (hpre : ∀ c ∈ pre, p c = true)
    (hrest : ∀ c ∈ rest.head?, p c = false) : (pre ++ rest).takeWhile p = pre := by
  rw [List.takeWhile_append_of_pos hpre, takeWhile_eq_nil_of_head? hrest, List.append_nil]

/-- What is dropped to is that element and the rest. -/
theorem dropWhile_append_of_head? (hpre : ∀ c ∈ pre, p c = true)
    (hrest : ∀ c ∈ rest.head?, p c = false) : (pre ++ rest).dropWhile p = rest := by
  rw [List.dropWhile_append_of_pos hpre, dropWhile_eq_self_of_head? hrest]

/-- What is dropped to does not start with `p`. -/
theorem head?_dropWhile : ∀ c ∈ (l.dropWhile p).head?, p c = false := by
  intro c hc
  have h := List.head?_dropWhile_not p l
  rw [Option.mem_def.mp hc] at h
  exact h

theorem of_mem_takeWhile : ∀ c ∈ l.takeWhile p, p c = true := fun _ => List.mem_takeWhile_imp

/-! ## Trimming -/

/-- The list without the elements with `p` at its ends. -/
def trimBy (p : α → Bool) (l : List α) : List α := (l.dropWhile p).rdropWhile p

theorem rdropWhile_append_of_pos (h : ∀ c ∈ post, p c = true) :
    (l ++ post).rdropWhile p = l.rdropWhile p := by
  induction post using List.reverseRecOn with
  | nil => rw [List.append_nil]
  | append_singleton post c ih =>
    have hc := h c (List.mem_append_right _ List.mem_cons_self)
    rw [← List.append_assoc, List.rdropWhile_concat_pos _ _ _ hc]
    exact ih fun d hd => h d (List.mem_append_left _ hd)

theorem rdropWhile_eq_self (h : ∀ c ∈ l.getLast?, p c = false) : l.rdropWhile p = l := by
  refine List.rdropWhile_eq_self_iff.mpr fun hl => ?_
  exact Bool.eq_false_iff.mp (h _ (List.getLast?_eq_some_getLast hl))

theorem getLast?_rdropWhile : ∀ c ∈ (l.rdropWhile p).getLast?, p c = false := by
  intro c hc
  obtain ⟨hne, rfl⟩ := List.mem_getLast?_eq_getLast hc
  exact Bool.eq_false_iff.mpr (List.rdropWhile_last_not _ _ hne)

/-- A list that starts without `p` starts so when it is trimmed. -/
theorem head?_rdropWhile {c : α} (h : l.head? = some c) (hc : p c = false) :
    (l.rdropWhile p).head? = some c := by
  obtain ⟨t, ht⟩ := List.rdropWhile_prefix p l
  cases hr : l.rdropWhile p with
  | nil =>
    have hall := List.rdropWhile_eq_nil_iff.mp hr c (List.mem_of_mem_head? h)
    rw [hc] at hall
    cases hall
  | cons d r =>
    rw [← ht, hr] at h
    exact h

theorem head?_trimBy_of_head? {c : α} (h : l.head? = some c) (hc : p c = false) :
    (trimBy p l).head? = some c := by
  have hdrop : l.dropWhile p = l := by
    refine dropWhile_eq_self_of_head? fun d hd => ?_
    rw [h] at hd
    cases hd
    exact hc
  rw [trimBy, hdrop]
  exact head?_rdropWhile h hc

theorem head?_trimBy : ∀ c ∈ (trimBy p l).head?, p c = false := by
  intro c hc
  refine head?_dropWhile (l := l) c ?_
  obtain ⟨t, ht⟩ := List.rdropWhile_prefix p (l.dropWhile p)
  rw [← ht, List.head?_append, show ((l.dropWhile p).rdropWhile p).head? = some c from hc]
  rfl

theorem getLast?_trimBy : ∀ c ∈ (trimBy p l).getLast?, p c = false := getLast?_rdropWhile

theorem trimBy_eq_self (hhead : ∀ c ∈ l.head?, p c = false)
    (hlast : ∀ c ∈ l.getLast?, p c = false) : trimBy p l = l := by
  rw [trimBy, dropWhile_eq_self_of_head? hhead, rdropWhile_eq_self hlast]

/-- What is around the list is trimmed with it. -/
theorem trimBy_append (mid : List α) (hpre : ∀ c ∈ pre, p c = true)
    (hpost : ∀ c ∈ post, p c = true) : trimBy p (pre ++ mid ++ post) = trimBy p mid := by
  rw [trimBy, List.append_assoc, List.dropWhile_append_of_pos hpre]
  by_cases hmid : ∀ c ∈ mid, p c = true
  · rw [List.dropWhile_append_of_pos hmid, trimBy, List.dropWhile_eq_nil_iff.mpr hmid]
    exact List.rdropWhile_eq_nil_iff.mpr fun c hc => hpost c (List.dropWhile_subset _ hc)
  · rw [List.dropWhile_append, if_neg, rdropWhile_append_of_pos hpost]
    · rfl
    · rwa [List.isEmpty_iff, List.dropWhile_eq_nil_iff]

theorem mem_of_mem_trimBy {c : α} (h : c ∈ trimBy p l) : c ∈ l :=
  List.dropWhile_subset _ ((List.rdropWhile_prefix p _).subset h)

/-! ## Pieces -/

/-- The pieces between separators are without them. -/
theorem notMem_of_mem_splitOn [BEq α] [LawfulBEq α] {a : α} {t : List α} (h : t ∈ l.splitOn a) :
    a ∉ t := by
  induction l generalizing t with
  | nil =>
    rw [List.splitOn_nil, List.mem_singleton] at h
    rw [h]
    exact List.not_mem_nil
  | cons x l ih =>
    rw [List.splitOn_cons_eq_if_modifyHead] at h
    split at h
    case isTrue =>
      rcases List.mem_cons.mp h with rfl | h
      · exact List.not_mem_nil
      · exact ih h
    case isFalse hx =>
      obtain ⟨hd, tl, hl⟩ := List.exists_cons_of_ne_nil (List.splitOn_ne_nil a l)
      rw [hl] at h ih
      rcases List.mem_cons.mp h with rfl | h
      · refine fun hmem => (List.mem_cons.mp hmem).elim ?_ (ih List.mem_cons_self)
        rintro rfl
        exact hx (beq_self_eq_true _)
      · exact ih (List.mem_cons_of_mem _ h)

end Fasm
