import Mathlib.Data.List.Chain
import Mathlib.Data.List.Perm.Subperm
import Mathlib.Logic.Relation

/-!
# Chains of a partial function

A partial function leads from one point to the next until it is undefined.  Where it is
defined at finitely many points only, a chain either ends within as many steps as there are
points, or comes back to a point and goes on for ever.
-/

namespace Fasm

open Relation (ReflTransGen TransGen)

universe u

variable {α : Type u} (next : α → Option α)

/-- Follow the chain from a point, for less than `fuel` steps, to its end. -/
def follow : (fuel : Nat) → α → Option α
  | 0, _ => none
  | fuel + 1, x =>
    match next x with
    | none => some x
    | some y => follow fuel y

/-- The next point. -/
def Leads (x y : α) : Prop := next x = some y

/-- The chain from the point comes to a point to which it comes back. -/
def Loops (x : α) : Prop := ∃ y, ReflTransGen (Leads next) x y ∧ TransGen (Leads next) y y

section Follow

variable {next} {x y : α}

theorem follow_end (h : next x = none) (fuel : Nat) : follow next (fuel + 1) x = some x := by
  rw [follow, h]

theorem follow_step (h : next x = some y) (fuel : Nat) :
    follow next (fuel + 1) x = follow next fuel y := by
  rw [follow, h]

/-- At the end of a chain it does not go on. -/
theorem next_of_follow {fuel : Nat} (h : follow next fuel x = some y) : next y = none := by
  induction fuel generalizing x with
  | zero => cases h
  | succ fuel ih =>
    cases hx : next x with
    | none =>
      rw [follow_end hx] at h
      cases h
      exact hx
    | some z =>
      rw [follow_step hx] at h
      exact ih h

/-- The end is reached by the steps. -/
theorem leads_of_follow {fuel : Nat} (h : follow next fuel x = some y) :
    ReflTransGen (Leads next) x y := by
  induction fuel generalizing x with
  | zero => cases h
  | succ fuel ih =>
    cases hx : next x with
    | none =>
      rw [follow_end hx] at h
      cases h
      exact .refl
    | some z =>
      rw [follow_step hx] at h
      exact .head hx (ih h)

/-- More fuel does not change the end. -/
theorem follow_mono {fuel fuel' : Nat} (h : follow next fuel x = some y) (hle : fuel ≤ fuel') :
    follow next fuel' x = some y := by
  induction fuel generalizing x fuel' with
  | zero => cases h
  | succ fuel ih =>
    cases fuel' with
    | zero => exact absurd hle (Nat.not_succ_le_zero fuel)
    | succ fuel' =>
      cases hx : next x with
      | none =>
        rw [follow_end hx] at h ⊢
        exact h
      | some z =>
        rw [follow_step hx] at h ⊢
        exact ih h (Nat.le_of_succ_le_succ hle)

/-- A loop goes on from every point on the way to it. -/
theorem Loops.exists_next (h : Loops next x) : ∃ y, next x = some y ∧ Loops next y := by
  obtain ⟨z, hxz, hzz⟩ := h
  rcases Relation.ReflTransGen.cases_head hxz with rfl | ⟨y, hxy, hyz⟩
  · obtain ⟨y, hxy, hyx⟩ := TransGen.head'_iff.mp hzz
    exact ⟨y, hxy, x, hyx, hzz⟩
  · exact ⟨y, hxy, z, hyz, hzz⟩

/-- A chain that loops has no end. -/
theorem Loops.follow_eq_none (h : Loops next x) (fuel : Nat) : follow next fuel x = none := by
  induction fuel generalizing x with
  | zero => rfl
  | succ fuel ih =>
    obtain ⟨y, hxy, hy⟩ := h.exists_next
    rw [follow_step hxy]
    exact ih hy

/-- A loop is not left. -/
theorem Loops.of_leads (h : Loops next x) (hxy : ReflTransGen (Leads next) x y) : Loops next y := by
  induction hxy with
  | refl => exact h
  | tail _ hyz ih =>
    obtain ⟨z, hyz', hz⟩ := ih.exists_next
    cases hyz.symm.trans hyz'
    exact hz

/-- A chain has one end. -/
theorem end_unique {z : α} (hxy : ReflTransGen (Leads next) x y)
    (hxz : ReflTransGen (Leads next) x z) (hy : next y = none) (hz : next z = none) : y = z := by
  induction hxy using ReflTransGen.head_induction_on with
  | refl =>
    rcases hxz.cases_head with rfl | ⟨w, hw, -⟩
    · rfl
    · cases hy.symm.trans hw
  | head hw _ ih =>
    rcases hxz.cases_head with rfl | ⟨w', hw', hwz⟩
    · cases hz.symm.trans hw
    · cases hw.symm.trans hw'
      exact ih hwz

/-- The points of a chain that does not end within `fuel` steps. -/
theorem exists_isChain {fuel : Nat} (h : follow next fuel x = none) :
    ∃ l : List α, l.length = fuel ∧ l.IsChain (Leads next) ∧ (∀ a ∈ l, ∃ b, next a = some b) ∧
      ∀ a ∈ l.head?, a = x := by
  induction fuel generalizing x with
  | zero => exact ⟨[], rfl, .nil, nofun, nofun⟩
  | succ fuel ih =>
    cases hx : next x with
    | none =>
      rw [follow_end hx] at h
      cases h
    | some y =>
      rw [follow_step hx] at h
      obtain ⟨l, hlen, hchain, hnext, hhead⟩ := ih h
      refine ⟨x :: l, congrArg (· + 1) hlen, ?_, ?_, ?_⟩
      · refine List.isChain_cons.mpr ⟨fun b hb => ?_, hchain⟩
        cases hhead b hb
        exact hx
      · exact List.forall_mem_cons.mpr ⟨⟨y, hx⟩, hnext⟩
      · rintro a ⟨⟩
        rfl

/-- The points of a chain are reached from its first point. -/
theorem leads_of_mem {l : List α} (hchain : l.IsChain (Leads next)) (hhead : ∀ a ∈ l.head?, a = x)
    {a : α} (ha : a ∈ l) : ReflTransGen (Leads next) x a := by
  cases l with
  | nil => cases ha
  | cons b l =>
    cases hhead b rfl
    have hpair := (hchain.imp fun _ _ h => TransGen.single h).pairwise
    rcases List.mem_cons.mp ha with rfl | ha
    · exact .refl
    · exact ((List.pairwise_cons.mp hpair).1 a ha).to_reflTransGen

/-- Where the function is defined at finitely many points, a chain ends within as many steps,
unless it loops. -/
theorem follow_eq_none_iff {points : List α} (hpoints : ∀ x y, next x = some y → x ∈ points) :
    follow next (points.length + 1) x = none ↔ Loops next x := by
  constructor
  · intro h
    obtain ⟨l, hlen, hchain, hnext, hhead⟩ := exists_isChain h
    by_contra hloop
    have hpair := (hchain.imp fun _ _ h => TransGen.single h).pairwise
    have hnodup : l.Nodup := by
      refine hpair.imp_of_mem fun {a b} ha _ hab heq => hloop ?_
      exact ⟨a, leads_of_mem hchain hhead ha, heq ▸ hab⟩
    have hsub : l ⊆ points := by
      intro a ha
      obtain ⟨b, hb⟩ := hnext a ha
      exact hpoints a b hb
    have hle := (hnodup.subperm hsub).length_le
    omega
  · exact fun h => h.follow_eq_none _

/-- Then a point has the end of the next one. -/
theorem follow_next {points : List α} (hpoints : ∀ x y, next x = some y → x ∈ points)
    (h : next x = some y) :
    follow next (points.length + 1) x = follow next (points.length + 1) y := by
  cases hy : follow next (points.length + 1) y with
  | none =>
    obtain ⟨z, hyz, hzz⟩ := (follow_eq_none_iff hpoints).mp hy
    exact (follow_eq_none_iff hpoints).mpr ⟨z, .head h hyz, hzz⟩
  | some z =>
    cases hx : follow next (points.length + 1) x with
    | none =>
      obtain ⟨y', hxy', hloop⟩ := ((follow_eq_none_iff hpoints).mp hx).exists_next
      cases h.symm.trans hxy'
      exact hy.symm.trans (hloop.follow_eq_none _) |>.symm
    | some w =>
      rw [follow_step h] at hx
      exact (follow_mono hx (Nat.le_succ _)).symm.trans hy

end Follow

end Fasm
