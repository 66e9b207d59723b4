import Fasm.Vm.Value

/-!
# Slots

`memory.rs`.  `Frame` (256 locals, indexed by `u8`) and `GlobalRegister` (indexed
by `u32`) are one vector of optional values with the same operations, so both are
`Slots` here; the index width is in the callers.
-/

namespace Fasm

/-- The slot vector of `Frame` and of `GlobalRegister`. -/
@[ext] structure Slots where
  slots : List (Option Value)

namespace Slots

/-- `new`. -/
def new : Slots := ⟨[]⟩

/-- `set`: grow the vector if needed and set a value. -/
def set (s : Slots) (idx : Nat) (value : Value) : Slots :=
  ⟨(s.slots ++ List.replicate (idx + 1 - s.slots.length) none).set idx (some value)⟩

/-- `get`. -/
def get (s : Slots) (idx : Nat) : Option Value := s.slots[idx]?.join

/-- `remove`. -/
def remove (s : Slots) (idx : Nat) : Slots := ⟨s.slots.set idx none⟩

/-- `snapshot`: a clone of all slots for `TRY` rollback. -/
def snapshot (s : Slots) : List (Option Value) := s.slots

/-- `restore`. -/
def restore (_ : Slots) (snap : List (Option Value)) : Slots := ⟨snap⟩

@[simp] theorem restore_snapshot (s s' : Slots) : s'.restore s.snapshot = s := rfl

/-- What a slot reads after it is set. -/
@[simp] theorem get_set_self (s : Slots) (i : Nat) (v : Value) : (s.set i v).get i = some v := by
  have h : i < (s.slots ++ List.replicate (i + 1 - s.slots.length) none).length := by
    simp only [List.length_append, List.length_replicate]
    omega
  simp only [get, set, List.getElem?_set_self h, Option.join_some]

/-- Setting a slot changes no other slot, those created by growing included. -/
theorem get_set_of_ne (s : Slots) {i j : Nat} (h : i ≠ j) (v : Value) :
    (s.set i v).get j = s.get j := by
  simp only [get, set, List.getElem?_set_ne h, List.getElem?_append]
  split
  case isTrue => rfl
  case isFalse hj =>
    rw [List.getElem?_eq_none (Nat.le_of_not_lt hj)]
    simp only [List.getElem?_replicate]
    split <;> rfl

@[simp] theorem get_remove_self (s : Slots) (i : Nat) : (s.remove i).get i = none := by
  simp only [get, remove, List.getElem?_set]
  split
  case isTrue => split <;> rfl
  case isFalse h => exact absurd trivial h

theorem get_remove_of_ne (s : Slots) {i j : Nat} (h : i ≠ j) :
    (s.remove i).get j = s.get j := by
  simp only [get, remove, List.getElem?_set_ne h]

end Slots

/-- `Frame`: local slots, indexed by `u8`. -/
abbrev Frame := Slots

/-- `GlobalRegister`: global slots, indexed by `u32`. -/
abbrev GlobalRegister := Slots

/-- `TmpFrame`: the registers `t0` … `t15` of a `TMP` block. -/
abbrev TmpFrame := Vector (Option Value) 16

/-- `TmpFrame::new`. -/
def TmpFrame.new : TmpFrame := Vector.replicate 16 none

end Fasm
