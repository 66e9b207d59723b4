import Fasm.Bytecode.Instruction
import Fasm.Vm.Fault
import Fasm.Vm.Float

/-!
# Runtime values

`value.rs`: the values that slots hold, their equality, and the operations of the
collection types.  A `VecDeque` is a list with its front first.  `FxHashMap` and
`BTreeMap` are lists of entries in key order: the order of a hash map is never
observed by the interpreter, so it may as well be sorted.

A Rust operation that can panic returns `Except Panic`.
-/

namespace Fasm

/-- `FasmBitset`: bit `i` is bit `i % 8` of byte `i / 8`. -/
structure FasmBitset where
  bytes : List U8
  len : U32
deriving DecidableEq, Repr

/-- `FasmBitvec`. -/
structure FasmBitvec where
  bytes : List U8
  bitLen : U64
deriving DecidableEq, Repr

/-- `Value`, the runtime value type for every FASM slot. -/
inductive Value where
  | null
  | bool (b : Bool)
  | int (t : IntTy) (n : BitVec t.width)
  | float32 (bits : U32)
  | float64 (bits : U64)
  | refMut (isGlobal : Bool) (idx : U32)
  | refImm (isGlobal : Bool) (idx : U32)
  | vec (elems : List Value)
  | struct (fields : List (U32 × Value))
  | stack (elems : List Value)
  | queue (elems : List Value)
  | heapMin (elems : List Value)
  | heapMax (elems : List Value)
  | sparse (entries : List (U32 × Value))
  | btree (entries : List (U32 × Value))
  | slice (elems : List Value)
  | deque (elems : List Value)
  | bitset (b : FasmBitset)
  | bitvec (b : FasmBitvec)
  | option (o : Option Value)
  | result (r : Except U32 Value)
  | future (v : Option Value)

namespace Value

/-- `Value::Uint32`. -/
abbrev uint32 (n : U32) : Value := .int .uint32 n

/-- `Value::Uint64`. -/
abbrev uint64 (n : U64) : Value := .int .uint64 n

instance : Inhabited Value := ⟨.null⟩

/-! ## Equality

The derived `PartialEq`: floats compare as floats, everything else by structure. -/

mutual

/-- `Value::eq`. -/
def beq : Value → Value → Bool
  | null, null => true
  | bool a, bool b => a == b
  | int t a, int t' b => t == t' && a.toNat == b.toNat
  | float32 a, float32 b => f64Eq (f32AsF64 a) (f32AsF64 b)
  | float64 a, float64 b => f64Eq a b
  | refMut g i, refMut g' i' | refImm g i, refImm g' i' => g == g' && i == i'
  | vec a, vec b | stack a, stack b | queue a, queue b | heapMin a, heapMin b
  | heapMax a, heapMax b | slice a, slice b | deque a, deque b => beqElems a b
  | struct a, struct b | sparse a, sparse b | btree a, btree b => beqEntries a b
  | bitset a, bitset b => a == b
  | bitvec a, bitvec b => a == b
  | option a, option b | future a, future b => beqOption a b
  | result a, result b => beqResult a b
  | _, _ => false
termination_by structural a => a

def beqElems : List Value → List Value → Bool
  | [], [] => true
  | a :: as, b :: bs => a.beq b && beqElems as bs
  | _, _ => false
termination_by structural a => a

def beqEntry : U32 × Value → U32 × Value → Bool
  | (k, a), (k', b) => k == k' && a.beq b
termination_by structural a => a

def beqEntries : List (U32 × Value) → List (U32 × Value) → Bool
  | [], [] => true
  | a :: as, b :: bs => beqEntry a b && beqEntries as bs
  | _, _ => false
termination_by structural a => a

def beqOption : Option Value → Option Value → Bool
  | none, none => true
  | some a, some b => a.beq b
  | _, _ => false
termination_by structural a => a

def beqResult : Except U32 Value → Except U32 Value → Bool
  | .ok a, .ok b => a.beq b
  | .error c, .error d => c == d
  | _, _ => false
termination_by structural a => a

end

instance : BEq Value := ⟨beq⟩

/-- `Value::is_truthy`. -/
def isTruthy : Value → Bool
  | bool b => b
  | int _ n => n != 0
  | float32 f => !f64Eq (f32AsF64 f) 0
  | float64 f => !f64Eq f 0
  | null => false
  | _ => true

end Value

/-! ## Structs -/

namespace FasmStruct

/-- `FasmStruct::get`. -/
def get (s : List (U32 × Value)) (key : U32) : Option Value :=
  (s.find? fun e => e.1 == key).map Prod.snd

/-- `FasmStruct::insert`: the first entry under the key is overwritten, a new key goes last. -/
def insert (s : List (U32 × Value)) (key : U32) (val : Value) : List (U32 × Value) :=
  match s with
  | [] => [(key, val)]
  | e :: s => if e.1 == key then (e.1, val) :: s else e :: insert s key val

/-- `FasmStruct::contains_key`. -/
def containsKey (s : List (U32 × Value)) (key : U32) : Bool := s.any fun e => e.1 == key

/-- `FasmStruct::remove`. -/
def remove (s : List (U32 × Value)) (key : U32) : List (U32 × Value) :=
  s.eraseP fun e => e.1 == key

end FasmStruct

/-! ## Keyed maps

`FasmSparse` and `FasmBTree` differ in the Rust map they wrap; as maps from `u32`
they do the same. -/

namespace FasmMap

/-- `get`. -/
def get (m : List (U32 × Value)) (key : U32) : Option Value :=
  (m.find? fun e => e.1 == key).map Prod.snd

/-- `insert`, at the key's place in key order. -/
def insert (m : List (U32 × Value)) (key : U32) (val : Value) : List (U32 × Value) :=
  match m with
  | [] => [(key, val)]
  | e :: m =>
    if key.ult e.1 then (key, val) :: e :: m
    else if key == e.1 then (key, val) :: m
    else e :: insert m key val

/-- `remove`. -/
def remove (m : List (U32 × Value)) (key : U32) : List (U32 × Value) :=
  m.eraseP fun e => e.1 == key

/-- `contains_key`. -/
def containsKey (m : List (U32 × Value)) (key : U32) : Bool := m.any fun e => e.1 == key

/-- `FasmBTree::min_key`. -/
def minKey (m : List (U32 × Value)) : Option U32 := m.head?.map Prod.fst

/-- `FasmBTree::max_key`. -/
def maxKey (m : List (U32 × Value)) : Option U32 := m.getLast?.map Prod.fst

end FasmMap

/-! ## Bytes of bit storage -/

/-- `u8` with only bit `i` set. -/
def bit8 (i : Nat) : U8 := 1#8 <<< i

/-- `bytes[i] = f(bytes[i])`, which panics past the end. -/
def updateByte (bytes : List U8) (i : Nat) (f : U8 → U8) : Except Panic (List U8) :=
  if i < bytes.length then .ok (bytes.modify i f) else .error .indexOutOfBounds

/-- `bytes.resize(n, 0)` where `n` is larger than the length, and nothing otherwise. -/
def growBytes (bytes : List U8) (n : Nat) : List U8 :=
  bytes ++ List.replicate (n - bytes.length) 0

@[simp] theorem length_growBytes (bytes : List U8) (n : Nat) :
    (growBytes bytes n).length = max bytes.length n := by
  simp only [growBytes, List.length_append, List.length_replicate]
  omega

/-- `n.div_ceil(8)`. -/
def divCeil8 (n : Nat) : Nat := (n + 7) / 8

namespace FasmBitset

/-- `FasmBitset::grow_to`. -/
def growTo (b : FasmBitset) (newLenBits : U32) : FasmBitset where
  bytes := growBytes b.bytes (divCeil8 newLenBits.toNat)
  len := if b.len.ult newLenBits then newLenBits else b.len

/-- The shared body of `set_bit` and `flip_bit`: grow so that bit `idx` is there, then
update its byte.  `idx + 1` wraps at `u32::MAX`. -/
def updateGrown (b : FasmBitset) (idx : U32) (f : U8 → U8) : Except Panic FasmBitset := do
  let byteIdx := idx.toNat / 8
  let b := if b.bytes.length ≤ byteIdx then b.growTo (idx + 1) else b
  return { b with bytes := ← updateByte b.bytes byteIdx f }

/-- `FasmBitset::set_bit`. -/
def setBit (b : FasmBitset) (idx : U32) : Except Panic FasmBitset :=
  b.updateGrown idx (· ||| bit8 (idx.toNat % 8))

/-- `FasmBitset::flip_bit`. -/
def flipBit (b : FasmBitset) (idx : U32) : Except Panic FasmBitset :=
  b.updateGrown idx (· ^^^ bit8 (idx.toNat % 8))

/-- `FasmBitset::clr_bit`. -/
def clrBit (b : FasmBitset) (idx : U32) : FasmBitset :=
  { b with bytes := b.bytes.modify (idx.toNat / 8) (· &&& ~~~bit8 (idx.toNat % 8)) }

/-- `FasmBitset::get_bit`. -/
def getBit (b : FasmBitset) (idx : U32) : Bool :=
  match b.bytes[idx.toNat / 8]? with
  | some byte => byte.getLsbD (idx.toNat % 8)
  | none => false

/-- `FasmBitset::popcount`. -/
def popcount (b : FasmBitset) : U32 :=
  .ofNat 32 ((b.bytes.map fun byte => ((List.range 8).filter byte.getLsbD).length).sum)

/-- The loop of `BIT_AND`: bytes the source does not have count as zero. -/
def bitAnd (d s : FasmBitset) : FasmBitset :=
  { d with bytes := d.bytes.mapIdx fun i byte => byte &&& s.bytes.getD i 0 }

/-- The loop of `BIT_OR` and `BIT_XOR`: the destination's bytes grow to the source's. -/
def bitMerge (op : U8 → U8 → U8) (d s : FasmBitset) : FasmBitset :=
  { d with bytes := (growBytes d.bytes s.bytes.length).mapIdx fun i byte =>
      match s.bytes[i]? with
      | some sb => op byte sb
      | none => byte }

end FasmBitset

namespace FasmBitvec

/-- `bit_len.min(64)`. -/
def clamp (bitLen : U32) : Nat := min bitLen.toNat 64

/-- `FasmBitvec::read_bits`. -/
def readBits (bv : FasmBitvec) (bitStart : U64) (bitLen : U32) : U64 :=
  (List.range (clamp bitLen)).foldl (fun result i =>
    let pos := bitStart + .ofNat 64 i
    match bv.bytes[pos.toNat / 8]? with
    | some byte => result ||| (if byte.getLsbD (pos.toNat % 8) then 1#64 <<< i else 0)
    | none => result) 0

/-- One round of the loop of `write_bits`: bit `i` of `value` goes to bit `bit_start + i`. -/
def writeBit (bitStart value : U64) (bytes : List U8) (i : Nat) : Except Panic (List U8) :=
  let pos := bitStart + .ofNat 64 i
  let bit := bit8 (pos.toNat % 8)
  updateByte bytes (pos.toNat / 8) fun byte =>
    if value.getLsbD i then byte ||| bit else byte &&& ~~~bit

/-- `FasmBitvec::write_bits`.  `bit_start + bit_len` wraps. -/
def writeBits (bv : FasmBitvec) (bitStart : U64) (bitLen : U32) (value : U64) :
    Except Panic FasmBitvec := do
  let endBit := bitStart + .ofNat 64 (clamp bitLen)
  let bytes := growBytes bv.bytes (divCeil8 endBit.toNat)
  let bytes ← (List.range (clamp bitLen)).foldlM (writeBit bitStart value) bytes
  return ⟨bytes, if bv.bitLen.ult endBit then endBit else bv.bitLen⟩

/-- `FasmBitvec::push_bits`. -/
def pushBits (bv : FasmBitvec) (value : U64) (bitLen : U32) : Except Panic FasmBitvec :=
  bv.writeBits bv.bitLen bitLen value

end FasmBitvec

end Fasm
