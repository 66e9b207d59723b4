import Fasm.Bytecode.Types

/-!
# Floating point on bit patterns

Slots hold `f32` and `f64` as bit patterns; the operations go through the logical
model of IEEE 754 that Lean's `Float` has.  A NaN result is the canonical NaN:
Rust leaves its payload open.
-/

namespace Fasm

open Float.Model (UnpackedFloat Format)

/-- Round an unpacked float to a format. -/
def roundTo (spec : Format) : UnpackedFloat → UnpackedFloat
  | .finite s m e _ => UnpackedFloat.round spec s m e
  | x => x

/-- `f64::from_bits`. -/
def f64OfBits (b : U64) : Float.Model := Float.Model.ofBits (.ofBitVec b)

/-- `f64::to_bits`. -/
def f64ToBits (f : Float.Model) : U64 := f.toBits.toBitVec

/-- `*f as f64` for an `f32`: exact. -/
def f32AsF64 (b : U32) : U64 :=
  f64ToBits (.pack (roundTo .binary64 (UnpackedFloat.unpack .binary32 b)))

/-- `f as f32` for an `f64`: round to nearest, ties to even. -/
def f64AsF32 (b : U64) : U32 :=
  (Float32.Model.pack (roundTo .binary32 (UnpackedFloat.unpack .binary64 b))).toBits.toBitVec

/-- `f as i64` for an `f64`: truncating, saturating, NaN to zero. -/
def f64AsI64 (b : U64) : U64 := (f64OfBits b).toInt64.toBitVec

/-- `n as f64` for an `i64`. -/
def i64AsF64 (n : U64) : U64 := f64ToBits (.ofInt n.toInt)

def f64Add (a b : U64) : U64 := f64ToBits (f64OfBits a + f64OfBits b)
def f64Sub (a b : U64) : U64 := f64ToBits (f64OfBits a - f64OfBits b)
def f64Mul (a b : U64) : U64 := f64ToBits (f64OfBits a * f64OfBits b)
def f64Div (a b : U64) : U64 := f64ToBits (f64OfBits a / f64OfBits b)

/-- The exact remainder of truncated division, with the sign of the dividend. -/
def unpackedRem : UnpackedFloat → UnpackedFloat → UnpackedFloat
  | .notANumber, _ | _, .notANumber | .infinity _, _ | _, .zero _ => .notANumber
  | x, .infinity _ => x
  | .zero s, .finite _ _ _ _ => .zero s
  | .finite s m e _, .finite _ m' e' _ =>
    let e₀ := min e e'
    let r := (m <<< (e - e₀).toNat) % (m' <<< (e' - e₀).toNat)
    if r = 0 then .zero s else UnpackedFloat.round .binary64 s r e₀

/-- `a % b` on `f64`. -/
def f64Rem (a b : U64) : U64 :=
  f64ToBits (.pack (unpackedRem (UnpackedFloat.unpack .binary64 a)
    (UnpackedFloat.unpack .binary64 b)))

def f64Lt (a b : U64) : Bool := (f64OfBits a).lt (f64OfBits b)
def f64Le (a b : U64) : Bool := (f64OfBits a).le (f64OfBits b)
def f64Eq (a b : U64) : Bool := (f64OfBits a).beq (f64OfBits b)

/-- `-f` flips the sign bit, of a NaN too. -/
def f64Neg (a : U64) : U64 := a ^^^ 0x8000000000000000
def f32Neg (a : U32) : U32 := a ^^^ 0x80000000

example : f64Lt (f64Add 0x3FF0000000000000 0x3FF0000000000000) 0x4008000000000000 = true := by
  decide

end Fasm
