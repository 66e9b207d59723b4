import Mathlib.Algebra.Group.Int.Defs
import Mathlib.Algebra.GroupWithZero.Nat

/-!
# FASM type tags and opcodes

The two byte-backed enumerations of `fasm-bytecode`: `FasmType` (`types.rs`) and
`Opcode` (`opcode.rs`), each with its `repr` byte and the partial inverse
`try_from` that the decoder uses.

The eight integer types of the source (`Int8` … `Uint64`) differ only in width
and signedness, and every Rust `match` over them repeats one arm eight times.
Here they are one constructor `int` with a parameter `IntTy`, in `FasmType` as in
`Immediate` and `Value`; a machine integer of width `w` is a `BitVec w`, and
signedness is in how its bits are read.
-/

namespace Fasm

/-- Rust's `u8`; a byte of a `.fasmc` file. -/
abbrev U8 := BitVec 8
/-- Rust's `u16`. -/
abbrev U16 := BitVec 16
/-- Rust's `u32`, and the bits of an `i32`. -/
abbrev U32 := BitVec 32
/-- Rust's `u64`, and the bits of an `i64`. -/
abbrev U64 := BitVec 64

/-- The eight integer types of FASM. -/
inductive IntTy where
  | int8 | int16 | int32 | int64
  | uint8 | uint16 | uint32 | uint64
deriving DecidableEq, Repr

namespace IntTy

/-- Width in bits. -/
def width : IntTy → Nat
  | int8 | uint8 => 8
  | int16 | uint16 => 16
  | int32 | uint32 => 32
  | int64 | uint64 => 64

/-- Does `as i64` sign-extend this type? -/
def signed : IntTy → Bool
  | int8 | int16 | int32 | int64 => true
  | uint8 | uint16 | uint32 | uint64 => false

/-- Width in bytes, the payload size of an integer immediate. -/
def bytes : IntTy → Nat
  | int8 | uint8 => 1
  | int16 | uint16 => 2
  | int32 | uint32 => 4
  | int64 | uint64 => 8

theorem width_eq_bytes (t : IntTy) : t.width = 8 * t.bytes := by cases t <;> rfl

theorem width_pos (t : IntTy) : 0 < t.width := by cases t <;> decide

theorem width_le (t : IntTy) : t.width ≤ 64 := by cases t <;> decide

end IntTy

/-- `FasmType` of `types.rs`. -/
inductive FasmType where
  | bool
  | int (t : IntTy)
  | float32 | float64
  | refMut | refImm
  | vec | struct | stack | queue | heapMin | heapMax
  | sparse | btree | slice | deque | bitset | bitvec
  | option | result | future
  | null
deriving DecidableEq, Repr

/-- `{:02X}`: a byte as two upper-case hexadecimal digits. -/
def hex2 (b : Nat) : String :=
  let digit (d : Nat) : Char := ("0123456789ABCDEF".toList[d % 16]?).getD '0'
  String.ofList [digit (b / 16), digit b]

namespace FasmType

/-- `t as u8`. -/
def toByte : FasmType → U8
  | bool => 0x01
  | int .int8 => 0x02
  | int .int16 => 0x03
  | int .int32 => 0x04
  | int .int64 => 0x05
  | int .uint8 => 0x06
  | int .uint16 => 0x07
  | int .uint32 => 0x08
  | int .uint64 => 0x09
  | float32 => 0x0A
  | float64 => 0x0B
  | refMut => 0x10
  | refImm => 0x11
  | vec => 0x20
  | struct => 0x21
  | stack => 0x22
  | queue => 0x23
  | heapMin => 0x24
  | heapMax => 0x25
  | sparse => 0x26
  | btree => 0x27
  | slice => 0x28
  | deque => 0x29
  | bitset => 0x2A
  | bitvec => 0x2B
  | option => 0x30
  | result => 0x31
  | future => 0x32
  | null => 0xFF

/-- `FasmType::try_from(u8)`. -/
def tryFrom (b : U8) : Except String FasmType :=
  match b.toNat with
  | 0x01 => .ok bool
  | 0x02 => .ok (int .int8)
  | 0x03 => .ok (int .int16)
  | 0x04 => .ok (int .int32)
  | 0x05 => .ok (int .int64)
  | 0x06 => .ok (int .uint8)
  | 0x07 => .ok (int .uint16)
  | 0x08 => .ok (int .uint32)
  | 0x09 => .ok (int .uint64)
  | 0x0A => .ok float32
  | 0x0B => .ok float64
  | 0x10 => .ok refMut
  | 0x11 => .ok refImm
  | 0x20 => .ok vec
  | 0x21 => .ok struct
  | 0x22 => .ok stack
  | 0x23 => .ok queue
  | 0x24 => .ok heapMin
  | 0x25 => .ok heapMax
  | 0x26 => .ok sparse
  | 0x27 => .ok btree
  | 0x28 => .ok slice
  | 0x29 => .ok deque
  | 0x2A => .ok bitset
  | 0x2B => .ok bitvec
  | 0x30 => .ok option
  | 0x31 => .ok result
  | 0x32 => .ok future
  | 0xFF => .ok null
  | n => .error ("Unknown type tag: 0x" ++ hex2 n)

@[simp] theorem tryFrom_toByte (t : FasmType) : tryFrom t.toByte = .ok t := by
  cases t with
  | int t => cases t <;> rfl
  | _ => rfl

/-- Every type has one byte. -/
theorem tryFrom_eq_ok {b : U8} {t : FasmType} : tryFrom b = .ok t ↔ b = t.toByte := by
  constructor
  · intro h
    unfold tryFrom at h
    split at h
    all_goals cases h
    all_goals exact BitVec.eq_of_toNat_eq ‹_›
  · rintro rfl
    exact tryFrom_toByte t

end FasmType

/-- `Opcode` of `opcode.rs`. -/
inductive Opcode where
  | nop
  | reserve | release
  | mov | store | addr
  | add | sub | mul | div | mod | neg
  | eq | neq | lt | lte | gt | gte
  | and | or | xor | not | shl | shr
  | jmp | jz | jnz | call | asyncCall | ret | await | tailCall | tmpBlock | endTmp
  | syscall | asyncSyscall
  | push | pop | enqueue | dequeue | peek | getIdx | setIdx
  | getField | setField | hasField | delField | len
  | prepend | popBack | peekBack
  | some_ | isSome | unwrap | ok_ | err_ | isOk | unwrapOk | unwrapErr
  | cast
  | try_ | catch_ | endTry
  | vecSort | vecFilter | vecMerge | vecSlice
  | sparseGet | sparseSet | sparseDel | sparseHas
  | btreeGet | btreeSet | btreeDel | btreeHas | btreeMin | btreeMax
  | bitSet_ | bitClr | bitGet | bitFlip | bitCount | bitAnd | bitOr | bitXor | bitGrow
  | bitvecRead | bitvecWrite | bitvecPush
  | halt
deriving DecidableEq, Repr

/-- The headings of the opcode table. -/
inductive OpcodeKind where
  | special | memory | movement | arithmetic | comparison | bitwise | controlFlow | syscalls
  | collections | wrappers | conversion | errors | vec | sparse | btree | bitset | bitvec
deriving DecidableEq

namespace Opcode

/-- The heading under which the opcode stands. -/
def kind : Opcode → OpcodeKind
  | nop | halt => .special
  | reserve | release => .memory
  | mov | store | addr => .movement
  | add | sub | mul | div | mod | neg => .arithmetic
  | eq | neq | lt | lte | gt | gte => .comparison
  | and | or | xor | not | shl | shr => .bitwise
  | jmp | jz | jnz | call | asyncCall | ret | await | tailCall | tmpBlock | endTmp => .controlFlow
  | syscall | asyncSyscall => .syscalls
  | push | pop | enqueue | dequeue | peek | getIdx | setIdx | getField | setField | hasField
  | delField | len | prepend | popBack | peekBack => .collections
  | some_ | isSome | unwrap | ok_ | err_ | isOk | unwrapOk | unwrapErr => .wrappers
  | cast => .conversion
  | try_ | catch_ | endTry => .errors
  | vecSort | vecFilter | vecMerge | vecSlice => .vec
  | sparseGet | sparseSet | sparseDel | sparseHas => .sparse
  | btreeGet | btreeSet | btreeDel | btreeHas | btreeMin | btreeMax => .btree
  | bitSet_ | bitClr | bitGet | bitFlip | bitCount | bitAnd | bitOr | bitXor | bitGrow => .bitset
  | bitvecRead | bitvecWrite | bitvecPush => .bitvec

/-- `opcode as u8`. -/
def toByte : Opcode → U8
  | nop => 0x00
  | reserve => 0x01
  | release => 0x02
  | mov => 0x03
  | store => 0x04
  | addr => 0x05
  | add => 0x10
  | sub => 0x11
  | mul => 0x12
  | div => 0x13
  | mod => 0x14
  | neg => 0x15
  | eq => 0x20
  | neq => 0x21
  | lt => 0x22
  | lte => 0x23
  | gt => 0x24
  | gte => 0x25
  | and => 0x30
  | or => 0x31
  | xor => 0x32
  | not => 0x33
  | shl => 0x34
  | shr => 0x35
  | jmp => 0x40
  | jz => 0x41
  | jnz => 0x42
  | call => 0x43
  | asyncCall => 0x44
  | ret => 0x45
  | await => 0x46
  | tailCall => 0x47
  | tmpBlock => 0x48
  | endTmp => 0x49
  | syscall => 0x50
  | asyncSyscall => 0x51
  | push => 0x60
  | pop => 0x61
  | enqueue => 0x62
  | dequeue => 0x63
  | peek => 0x64
  | getIdx => 0x65
  | setIdx => 0x66
  | getField => 0x67
  | setField => 0x68
  | hasField => 0x69
  | delField => 0x6A
  | len => 0x6B
  | prepend => 0x6C
  | popBack => 0x6D
  | peekBack => 0x6E
  | some_ => 0x70
  | isSome => 0x71
  | unwrap => 0x72
  | ok_ => 0x73
  | err_ => 0x74
  | isOk => 0x75
  | unwrapOk => 0x76
  | unwrapErr => 0x77
  | cast => 0x80
  | try_ => 0x90
  | catch_ => 0x91
  | endTry => 0x92
  | vecSort => 0xA0
  | vecFilter => 0xA1
  | vecMerge => 0xA2
  | vecSlice => 0xA3
  | sparseGet => 0xA4
  | sparseSet => 0xA5
  | sparseDel => 0xA6
  | sparseHas => 0xA7
  | btreeGet => 0xA8
  | btreeSet => 0xA9
  | btreeDel => 0xAA
  | btreeHas => 0xAB
  | btreeMin => 0xAC
  | btreeMax => 0xAD
  | bitSet_ => 0xB0
  | bitClr => 0xB1
  | bitGet => 0xB2
  | bitFlip => 0xB3
  | bitCount => 0xB4
  | bitAnd => 0xB5
  | bitOr => 0xB6
  | bitXor => 0xB7
  | bitGrow => 0xB8
  | bitvecRead => 0xC0
  | bitvecWrite => 0xC1
  | bitvecPush => 0xC2
  | halt => 0xFF

/-- `Opcode::try_from(u8)`. -/
def tryFrom (b : U8) : Except String Opcode :=
  match b.toNat with
  | 0x00 => .ok nop
  | 0x01 => .ok reserve
  | 0x02 => .ok release
  | 0x03 => .ok mov
  | 0x04 => .ok store
  | 0x05 => .ok addr
  | 0x10 => .ok add
  | 0x11 => .ok sub
  | 0x12 => .ok mul
  | 0x13 => .ok div
  | 0x14 => .ok mod
  | 0x15 => .ok neg
  | 0x20 => .ok eq
  | 0x21 => .ok neq
  | 0x22 => .ok lt
  | 0x23 => .ok lte
  | 0x24 => .ok gt
  | 0x25 => .ok gte
  | 0x30 => .ok and
  | 0x31 => .ok or
  | 0x32 => .ok xor
  | 0x33 => .ok not
  | 0x34 => .ok shl
  | 0x35 => .ok shr
  | 0x40 => .ok jmp
  | 0x41 => .ok jz
  | 0x42 => .ok jnz
  | 0x43 => .ok call
  | 0x44 => .ok asyncCall
  | 0x45 => .ok ret
  | 0x46 => .ok await
  | 0x47 => .ok tailCall
  | 0x48 => .ok tmpBlock
  | 0x49 => .ok endTmp
  | 0x50 => .ok syscall
  | 0x51 => .ok asyncSyscall
  | 0x60 => .ok push
  | 0x61 => .ok pop
  | 0x62 => .ok enqueue
  | 0x63 => .ok dequeue
  | 0x64 => .ok peek
  | 0x65 => .ok getIdx
  | 0x66 => .ok setIdx
  | 0x67 => .ok getField
  | 0x68 => .ok setField
  | 0x69 => .ok hasField
  | 0x6A => .ok delField
  | 0x6B => .ok len
  | 0x6C => .ok prepend
  | 0x6D => .ok popBack
  | 0x6E => .ok peekBack
  | 0x70 => .ok some_
  | 0x71 => .ok isSome
  | 0x72 => .ok unwrap
  | 0x73 => .ok ok_
  | 0x74 => .ok err_
  | 0x75 => .ok isOk
  | 0x76 => .ok unwrapOk
  | 0x77 => .ok unwrapErr
  | 0x80 => .ok cast
  | 0x90 => .ok try_
  | 0x91 => .ok catch_
  | 0x92 => .ok endTry
  | 0xA0 => .ok vecSort
  | 0xA1 => .ok vecFilter
  | 0xA2 => .ok vecMerge
  | 0xA3 => .ok vecSlice
  | 0xA4 => .ok sparseGet
  | 0xA5 => .ok sparseSet
  | 0xA6 => .ok sparseDel
  | 0xA7 => .ok sparseHas
  | 0xA8 => .ok btreeGet
  | 0xA9 => .ok btreeSet
  | 0xAA => .ok btreeDel
  | 0xAB => .ok btreeHas
  | 0xAC => .ok btreeMin
  | 0xAD => .ok btreeMax
  | 0xB0 => .ok bitSet_
  | 0xB1 => .ok bitClr
  | 0xB2 => .ok bitGet
  | 0xB3 => .ok bitFlip
  | 0xB4 => .ok bitCount
  | 0xB5 => .ok bitAnd
  | 0xB6 => .ok bitOr
  | 0xB7 => .ok bitXor
  | 0xB8 => .ok bitGrow
  | 0xC0 => .ok bitvecRead
  | 0xC1 => .ok bitvecWrite
  | 0xC2 => .ok bitvecPush
  | 0xFF => .ok halt
  | n => .error ("Unknown opcode: 0x" ++ hex2 n)

@[simp] theorem tryFrom_toByte (o : Opcode) : tryFrom o.toByte = .ok o := by
  cases o <;> rfl

/-- Every opcode has one byte. -/
theorem tryFrom_eq_ok {b : U8} {o : Opcode} : tryFrom b = .ok o ↔ b = o.toByte := by
  constructor
  · intro h
    unfold tryFrom at h
    split at h
    all_goals cases h
    all_goals exact BitVec.eq_of_toNat_eq ‹_›
  · rintro rfl
    exact tryFrom_toByte o

end Opcode

end Fasm
