import Mathlib.Algebra.Group.Nat.Defs

/-!
# Little-endian numbers

`leBytes n x` is the `n`-byte little-endian encoding of `x` modulo `256 ^ n`, and
`ofLe` reads such a list back.
-/

/-- The `n` low bytes of `x`, least significant first. -/
def leBytes : Nat → Nat → List (BitVec 8)
  | 0, _ => []
  | n + 1, x => BitVec.ofNat 8 x :: leBytes n (x / 256)

/-- The number whose little-endian bytes are given. -/
def ofLe : List (BitVec 8) → Nat
  | [] => 0
  | b :: bs => b.toNat + 256 * ofLe bs

@[simp] theorem length_leBytes (n x : Nat) : (leBytes n x).length = n := by
  induction n generalizing x with
  | zero => rfl
  | succ n ih => simp [leBytes, ih]

theorem ofLe_leBytes (n x : Nat) : ofLe (leBytes n x) = x % 256 ^ n := by
  induction n generalizing x with
  | zero => simp [leBytes, ofLe, Nat.mod_one]
  | succ n ih =>
    calc ofLe (leBytes (n + 1) x)
      _ = x % 256 + 256 * (x / 256 % 256 ^ n) := by rw [leBytes, ofLe, ih, BitVec.toNat_ofNat]
      _ = x % (256 * 256 ^ n) := Nat.mod_mul.symm
      _ = x % 256 ^ (n + 1) := by rw [Nat.pow_succ']

/-- A number that fits is read back. -/
theorem ofLe_leBytes_of_lt {n x : Nat} (h : x < 256 ^ n) : ofLe (leBytes n x) = x := by
  rw [ofLe_leBytes, Nat.mod_eq_of_lt h]

/-- A machine integer of `n` bytes is read back from its bytes. -/
theorem ofNat_ofLe_leBytes {w n : Nat} (hw : w = 8 * n) (x : BitVec w) :
    BitVec.ofNat w (ofLe (leBytes n x.toNat)) = x := by
  have hx : x.toNat < 256 ^ n := by
    calc x.toNat
      _ < 2 ^ w := x.isLt
      _ = 256 ^ n := by rw [hw, Nat.pow_mul]
  rw [ofLe_leBytes_of_lt hx, BitVec.ofNat_toNat, BitVec.setWidth_eq]

theorem ofLe_lt (bs : List (BitVec 8)) : ofLe bs < 256 ^ bs.length := by
  induction bs with
  | nil => exact Nat.one_pos
  | cons b bs ih =>
    have hb : b.toNat < 256 := b.isLt
    rw [ofLe, List.length_cons, Nat.pow_succ]
    omega

/-- The bytes of a number are the ones that it was read from. -/
theorem leBytes_ofLe (bs : List (BitVec 8)) : leBytes bs.length (ofLe bs) = bs := by
  induction bs with
  | nil => rfl
  | cons b bs ih =>
    have hb : b.toNat < 256 := b.isLt
    have hlow : BitVec.ofNat 8 (b.toNat + 256 * ofLe bs) = b := by
      apply BitVec.eq_of_toNat_eq
      rw [BitVec.toNat_ofNat]
      omega
    have hhigh : (b.toNat + 256 * ofLe bs) / 256 = ofLe bs := by omega
    rw [List.length_cons, ofLe, leBytes, hlow, hhigh, ih]

/-- Only what the bytes can hold is written. -/
theorem leBytes_mod (n x : Nat) : leBytes n (x % 256 ^ n) = leBytes n x := by
  have h := leBytes_ofLe (leBytes n x)
  rwa [length_leBytes, ofLe_leBytes] at h

/-- A machine integer of `n` bytes has the bytes that it was read from. -/
theorem leBytes_ofNat_ofLe {w n : Nat} (hw : w = 8 * n) {bs : List (BitVec 8)}
    (h : bs.length = n) : leBytes n (BitVec.ofNat w (ofLe bs)).toNat = bs := by
  have hlt : ofLe bs < 2 ^ w := by
    calc ofLe bs
      _ < 256 ^ bs.length := ofLe_lt bs
      _ = 2 ^ w := by rw [h, hw, Nat.pow_mul]
  rw [BitVec.toNat_ofNat, Nat.mod_eq_of_lt hlt, ← h, leBytes_ofLe]
