import Mathlib.Data.Finmap
import Mathlib.Tactic.Tauto

/-!
# Hash maps

A hash map is a finite map: its iteration order is not part of it.  What iterates over a
map takes an enumeration of the keys as an argument, and is said of every one.
-/

namespace Fasm

universe u v

/-- A map with keys in `κ` and values in `ν`, in no order. -/
abbrev HashMap (κ : Type u) (ν : Type v) : Type (max u v) := Finmap fun _ : κ => ν

namespace HashMap

variable {κ : Type u} {ν : Type v}

/-- The values, with repetitions. -/
def values (m : HashMap κ ν) : Multiset ν := m.entries.map Sigma.snd

/-- The keys of the values that satisfy `p`. -/
def keysWhere (p : ν → Prop) [DecidablePred p] (m : HashMap κ ν) : Multiset κ :=
  (m.entries.filter fun e => p e.2).map Sigma.fst

/-- The empty map has no values. -/
@[simp] theorem values_empty : values (∅ : HashMap κ ν) = 0 := rfl

/-- As many keys as values. -/
theorem card_keys (m : HashMap κ ν) : m.keys.card = m.values.card := by
  show (m.entries.map Sigma.fst).card = _
  rw [Multiset.card_map, values, Multiset.card_map]

/-- Every value is changed, no key is. -/
def mapValues (f : ν → ν) (m : HashMap κ ν) : HashMap κ ν where
  entries := m.entries.map fun e => ⟨e.1, f e.2⟩
  nodupKeys := by
    have hkeys : (m.entries.map fun e => (⟨e.1, f e.2⟩ : Sigma fun _ : κ => ν)).keys =
        m.entries.keys := by
      unfold Multiset.keys
      rw [Multiset.map_map]
      rfl
    rw [← Multiset.nodup_keys, hkeys]
    exact Multiset.nodup_keys.mpr m.nodupKeys

variable [DecidableEq κ]

/-- What is found after the change. -/
theorem lookup_mapValues (f : ν → ν) (m : HashMap κ ν) (k : κ) :
    (mapValues f m).lookup k = (m.lookup k).map f := by
  apply Option.ext
  intro v
  rw [Finmap.lookup_eq_some_iff, Option.map_eq_some_iff]
  constructor
  · intro h
    obtain ⟨⟨k', w⟩, hmem, heq⟩ := Multiset.mem_map.mp h
    cases heq
    exact ⟨w, Finmap.lookup_eq_some_iff.mpr hmem, rfl⟩
  · rintro ⟨w, hw, rfl⟩
    exact Multiset.mem_map_of_mem _ (Finmap.lookup_eq_some_iff.mp hw)

/-- A key that is there, and the rest of the map. -/
theorem entries_of_lookup {m : HashMap κ ν} {k : κ} {v : ν} (h : m.lookup k = some v) :
    m.entries = ⟨k, v⟩ ::ₘ (m.erase k).entries := by
  have hm : m = (m.erase k).insert k v := by
    apply Finmap.ext_lookup
    intro k'
    by_cases hk : k' = k
    · subst hk
      rw [h, Finmap.lookup_insert]
    · rw [Finmap.lookup_insert_of_ne _ hk, Finmap.lookup_erase_ne hk]
  rw [← Finmap.entries_insert_of_notMem Finmap.notMem_erase_self, ← hm]

/-- Taking out a key that is not there. -/
theorem erase_of_notMem {m : HashMap κ ν} {k : κ} (h : k ∉ m) : m.erase k = m := by
  apply Finmap.ext_lookup
  intro k'
  by_cases hk : k' = k
  · rw [hk, Finmap.lookup_erase, Finmap.lookup_eq_none.mpr h]
  · exact Finmap.lookup_erase_ne hk

/-- What is found after taking out a key was there before. -/
theorem lookup_of_erase {m : HashMap κ ν} {k k' : κ} {v : ν}
    (h : (m.erase k).lookup k' = some v) : m.lookup k' = some v := by
  by_cases hk : k' = k
  · subst hk
    rw [Finmap.lookup_erase] at h
    cases h
  · rwa [Finmap.lookup_erase_ne hk] at h

/-- What is found after an insertion is what was inserted, or was there before. -/
theorem lookup_of_insert {m : HashMap κ ν} {k k' : κ} {v v' : ν}
    (h : (m.insert k v).lookup k' = some v') : (k' = k ∧ v' = v) ∨ m.lookup k' = some v' := by
  by_cases hk : k' = k
  · subst hk
    rw [Finmap.lookup_insert] at h
    exact .inl ⟨rfl, (Option.some.inj h).symm⟩
  · rw [Finmap.lookup_insert_of_ne _ hk] at h
    exact .inr h

/-- Taking a key out takes its value out. -/
theorem values_erase {m : HashMap κ ν} {k : κ} {v : ν} (h : m.lookup k = some v) :
    m.values = v ::ₘ values (m.erase k) := by
  unfold values
  rw [entries_of_lookup h, Multiset.map_cons]

/-- A new key adds its value. -/
theorem values_insert {m : HashMap κ ν} {k : κ} (h : k ∉ m) (v : ν) :
    values (m.insert k v) = v ::ₘ m.values := by
  unfold values
  rw [Finmap.entries_insert_of_notMem h, Multiset.map_cons]

/-- What is found under a key is a value. -/
theorem mem_values {m : HashMap κ ν} {k : κ} {v : ν} (h : m.lookup k = some v) :
    v ∈ m.values := by
  rw [values_erase h]
  exact Multiset.mem_cons_self v _

/-- A value is found under some key. -/
theorem exists_lookup {m : HashMap κ ν} {v : ν} (h : v ∈ m.values) : ∃ k, m.lookup k = some v := by
  obtain ⟨⟨k, w⟩, hmem, rfl⟩ := Multiset.mem_map.mp h
  exact ⟨k, Finmap.mem_lookup_iff.mpr hmem⟩

/-- The entries of a list are inserted one after the other. -/
def insertAll (l : List (κ × ν)) (m : HashMap κ ν) : HashMap κ ν :=
  l.foldl (fun m e => m.insert e.1 e.2) m

/-- New keys, each inserted once, add their values. -/
theorem values_insertAll {l : List (κ × ν)} (hnodup : (l.map Prod.fst).Nodup)
    {m : HashMap κ ν} (hnew : ∀ k ∈ l.map Prod.fst, k ∉ m) :
    values (insertAll l m) = m.values + (l.map Prod.snd : List ν) := by
  induction l generalizing m with
  | nil => exact (add_zero _).symm
  | cons e l ih =>
    rw [List.map_cons, List.nodup_cons] at hnodup
    show values (insertAll l (m.insert e.1 e.2)) = _
    rw [ih hnodup.2, values_insert (hnew e.1 List.mem_cons_self), List.map_cons,
      ← Multiset.cons_coe, Multiset.add_cons, Multiset.cons_add]
    intro k hk
    rw [Finmap.mem_insert, not_or]
    constructor
    · rintro rfl
      exact hnodup.1 hk
    · exact hnew k (List.mem_cons_of_mem _ hk)

/-- The keys after an insertion. -/
theorem keys_insertAll (l : List (κ × ν)) (m : HashMap κ ν) :
    (insertAll l m).keys = m.keys ∪ (l.map Prod.fst).toFinset := by
  induction l generalizing m with
  | nil => exact (Finset.union_empty _).symm
  | cons e l ih =>
    show (insertAll l (m.insert e.1 e.2)).keys = _
    rw [ih]
    ext k
    simp only [Finset.mem_union, Finmap.mem_keys, Finmap.mem_insert, List.mem_toFinset,
      List.map_cons, List.mem_cons]
    tauto

/-- No more values than entries were inserted. -/
theorem card_values_insertAll_le (l : List (κ × ν)) :
    (values (insertAll l ∅)).card ≤ l.length := by
  rw [← card_keys, keys_insertAll, Finmap.keys_empty, Finset.empty_union]
  apply (List.toFinset_card_le _).trans
  rw [List.length_map]

/-- As many values as entries were inserted only where no key was repeated. -/
theorem nodup_of_card_insertAll {l : List (κ × ν)}
    (h : (values (insertAll l ∅)).card = l.length) : (l.map Prod.fst).Nodup := by
  rw [← card_keys, keys_insertAll, Finmap.keys_empty, Finset.empty_union] at h
  rw [← Multiset.coe_nodup, ← Multiset.toFinset_card_eq_card_iff_nodup, Multiset.coe_card,
    List.length_map]
  exact h

end HashMap

end Fasm
