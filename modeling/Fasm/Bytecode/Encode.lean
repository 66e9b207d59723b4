import Fasm.Bytecode.Instruction
import Fasm.Lib.LittleEndian
import Fasm.Lib.Parser

/-!
# The `.fasmc` file format

`encode_program` and `decode_program` of `encode.rs`.  The encoder appends bytes
to a buffer, here a function to byte lists; the decoder's `Cursor` is a prefix
parser whose state is the unread input.
-/

namespace Fasm

/-! ## Strings as UTF-8 bytes -/

/-- `s.as_bytes()`. -/
def asBytes (s : String) : List U8 := s.toByteArray.data.toList.map UInt8.toBitVec

/-- The bytes of a character. -/
def charBytes (c : Char) : List U8 := (String.utf8EncodeChar c).map UInt8.toBitVec

theorem asBytes_ofList (cs : List Char) : asBytes (String.ofList cs) = cs.flatMap charBytes := by
  rw [asBytes, String.toByteArray_ofList, List.utf8Encode, List.toList_data_toByteArray,
    List.map_flatMap]
  rfl

theorem length_charBytes (c : Char) : (charBytes c).length = c.utf8Size := by
  rw [charBytes, List.length_map, String.length_utf8EncodeChar]

theorem utf8Size_eq_one_iff {c : Char} : c.utf8Size = 1 ↔ c.toNat < 0x80 := by
  rw [Char.utf8Size_eq_one_iff, UInt32.le_iff_toNat_le]
  exact Nat.lt_succ_iff.symm

theorem charBytes_ascii {c : Char} (h : c.toNat < 0x80) :
    charBytes c = [BitVec.ofNat 8 c.toNat] := by
  rw [charBytes, String.utf8EncodeChar_eq_singleton (utf8Size_eq_one_iff.mpr h)]
  exact congrArg (fun b => [b]) (BitVec.eq_of_toNat_eq rfl)

/-- `b as i8 < -64`: a UTF-8 continuation byte. -/
def isCont (b : U8) : Bool := 0x80 ≤ b && b ≤ 0xBF

/-- Where UTF-8 validation stops: `valid_up_to`, and `error_len` unless the input
ends inside a character. -/
def utf8Error (validUpTo : Nat) : List U8 → Option (Nat × Option Nat)
  | [] => none
  | b₀ :: bs =>
    if b₀ < 0x80 then utf8Error (validUpTo + 1) bs
    else if 0xC2 ≤ b₀ && b₀ ≤ 0xDF then
      match bs with
      | [] => some (validUpTo, none)
      | b₁ :: bs =>
        if isCont b₁ then utf8Error (validUpTo + 2) bs else some (validUpTo, some 1)
    else if 0xE0 ≤ b₀ && b₀ ≤ 0xEF then
      match bs with
      | [] => some (validUpTo, none)
      | b₁ :: bs =>
        -- no overlong forms after E0, no surrogates after ED
        let lo : U8 := if b₀ = 0xE0 then 0xA0 else 0x80
        let hi : U8 := if b₀ = 0xED then 0x9F else 0xBF
        if !(lo ≤ b₁ && b₁ ≤ hi) then some (validUpTo, some 1)
        else match bs with
          | [] => some (validUpTo, none)
          | b₂ :: bs =>
            if isCont b₂ then utf8Error (validUpTo + 3) bs else some (validUpTo, some 2)
    else if 0xF0 ≤ b₀ && b₀ ≤ 0xF4 then
      match bs with
      | [] => some (validUpTo, none)
      | b₁ :: bs =>
        -- no overlong forms after F0, nothing above U+10FFFF after F4
        let lo : U8 := if b₀ = 0xF0 then 0x90 else 0x80
        let hi : U8 := if b₀ = 0xF4 then 0x8F else 0xBF
        if !(lo ≤ b₁ && b₁ ≤ hi) then some (validUpTo, some 1)
        else match bs with
          | [] => some (validUpTo, none)
          | b₂ :: bs =>
            if !isCont b₂ then some (validUpTo, some 2)
            else match bs with
              | [] => some (validUpTo, none)
              | b₃ :: bs =>
                if isCont b₃ then utf8Error (validUpTo + 4) bs else some (validUpTo, some 3)
    else some (validUpTo, some 1)

/-- The `Display` text of `FromUtf8Error`. -/
def fromUtf8Error (bs : List U8) : String :=
  match utf8Error 0 bs with
  | some (at_, some n) =>
    "invalid utf-8 sequence of " ++ toString n ++ " bytes from index " ++ toString at_
  | some (at_, none) => "incomplete utf-8 byte sequence from index " ++ toString at_
  | none => ""

/-- `String::from_utf8`. -/
def fromUtf8 (bs : List U8) : Except String String :=
  match String.fromUTF8? ⟨(bs.map UInt8.ofBitVec).toArray⟩ with
  | some s => .ok s
  | none => .error (fromUtf8Error bs)

@[simp] theorem fromUtf8_asBytes (s : String) : fromUtf8 (asBytes s) = .ok s := by
  have h : (⟨((asBytes s).map UInt8.ofBitVec).toArray⟩ : ByteArray) = s.toByteArray := by
    simp [asBytes, Function.comp_def]
  rw [fromUtf8, h, String.fromUTF8?, dif_pos s.isValidUTF8]
  rfl

/-- A string is read from its own bytes only. -/
theorem fromUtf8_eq_ok {bs : List U8} {s : String} : fromUtf8 bs = .ok s ↔ bs = asBytes s := by
  constructor
  · intro h
    unfold fromUtf8 at h
    split at h
    case h_1 s' heq =>
      cases h
      unfold String.fromUTF8? at heq
      split at heq
      case isTrue =>
        cases heq
        show bs = ((bs.map UInt8.ofBitVec).toArray.toList).map UInt8.toBitVec
        rw [List.toList_toArray, List.map_map]
        exact (List.map_id bs).symm
      case isFalse => cases heq
    case h_2 => cases h
  · rintro rfl
    exact fromUtf8_asBytes s

/-! ## Encode -/

/-- `MAGIC`, `b"FSMC"`. -/
def magic : List U8 := [0x46, 0x53, 0x4D, 0x43]

/-- `b as u8`. -/
def boolByte (b : Bool) : U8 := if b then 1 else 0

/-- `encode_string`: the length is truncated to 16 bits. -/
def encodeString (s : String) : List U8 :=
  leBytes 2 (asBytes s).length ++ asBytes s

/-- The `BUILTIN_*` sub-tags. -/
def BuiltIn.toByte : BuiltIn → U8
  | args => 0x00
  | ret => 0x01
  | faultIndex => 0x02
  | faultCode => 0x03

/-- `TAG_IMM_I8` … `TAG_IMM_U64`. -/
def IntTy.immTag : IntTy → U8
  | int8 => 0x11
  | int16 => 0x12
  | int32 => 0x13
  | int64 => 0x14
  | uint8 => 0x15
  | uint16 => 0x16
  | uint32 => 0x17
  | uint64 => 0x18

/-- `encode_operand`: a kind tag and a payload. -/
def encodeOperand : Operand → List U8
  | .slot (.local_ i) => [0x00, i]
  | .slot (.global i) => 0x01 :: leBytes 2 i.toNat
  | .slot (.tmp i) => [0x04, i]
  | .slot (.derefLocal i) => [0x02, i]
  | .slot (.derefGlobal i) => 0x03 :: leBytes 2 i.toNat
  | .slot (.derefTmp i) => [0x05, i]
  | .slot (.builtIn b) => [0x06, b.toByte]
  | .imm (.bool v) => [0x10, boolByte v]
  | .imm (.int t n) => t.immTag :: leBytes t.bytes n.toNat
  | .imm (.float32 bits) => 0x19 :: leBytes 4 bits.toNat
  | .imm (.float64 bits) => 0x1A :: leBytes 8 bits.toNat
  | .imm .null => [0x1B]
  | .imm (.str s) => 0x1C :: encodeString s
  | .funcRef i => 0x20 :: leBytes 2 i.toNat
  | .labelTarget a => 0x21 :: leBytes 4 a.toNat
  | .syscallId i => 0x22 :: leBytes 4 i.toNat
  | .type t => [0x23, t.toByte]
  | .key k => 0x24 :: leBytes 4 k.toNat
  | .required r => [0x25, boolByte r]

/-- `encode_instruction`: the operand count is truncated to 8 bits. -/
def encodeInstruction (i : Instruction) : List U8 :=
  i.opcode.toByte :: leBytes 1 i.operands.length ++ i.operands.flatMap encodeOperand

/-- The per-param loop body of `encode_program`. -/
def encodeParam (p : ParamDescriptor) : List U8 :=
  leBytes 4 p.key.toNat ++ ([p.fasmType.toByte] ++ ([boolByte p.required] ++ encodeString p.name))

/-- The per-function loop body of `encode_program`. -/
def encodeFunction (f : FunctionDef) : List U8 :=
  encodeString f.name ++ (leBytes 4 f.params.length ++ (f.params.flatMap encodeParam ++
    (leBytes 4 f.instructions.length ++ f.instructions.flatMap encodeInstruction)))

/-- `encode_program`: the counts are truncated to 32 bits. -/
def encodeProgram (p : Program) : List U8 :=
  magic ++ ([p.version] ++ (leBytes 4 p.globalInits.length ++
    (p.globalInits.flatMap encodeInstruction ++ (leBytes 4 p.functions.length ++
      p.functions.flatMap encodeFunction))))

/-! ## Decode -/

/-- A decoding function over the `Cursor`. -/
abbrev Decoder (α : Type) := Parser U8 String α

namespace Decoder

def eof : String := "Unexpected EOF"

/-- `Cursor::read_u8`. -/
def readU8 : Decoder U8 := Parser.item eof

/-- `c.read_u8()? != 0`. -/
def readBool : Decoder Bool := do
  let b ← readU8
  return b != 0

/-- `Cursor::read_bytes`. -/
def readBytes (n : Nat) : Decoder (List U8) := Parser.take eof n

/-- `Cursor::read_u16` … `read_i64`, `read_f32`, `read_f64`: a `w`-bit number of `n`
little-endian bytes; the signed and float readers reinterpret the same bits. -/
def readLE (w n : Nat) : Decoder (BitVec w) := do
  let bs ← readBytes n
  return BitVec.ofNat w (ofLe bs)

/-- `Cursor::read_string`. -/
def readString : Decoder String := do
  let len ← readLE 16 2
  let bs ← readBytes len.toNat
  fromUtf8 bs

end Decoder

open Decoder

/-- The sub-tag match of `TAG_BUILTIN`. -/
def BuiltIn.tryFrom (b : U8) : Except String BuiltIn :=
  match b.toNat with
  | 0x00 => .ok args
  | 0x01 => .ok ret
  | 0x02 => .ok faultIndex
  | 0x03 => .ok faultCode
  | n => .error ("Unknown builtin tag 0x" ++ hex2 n)

/-- Every built-in has one sub-tag. -/
theorem BuiltIn.tryFrom_eq_ok {b : U8} {x : BuiltIn} : tryFrom b = .ok x ↔ b = x.toByte := by
  constructor
  · intro h
    unfold tryFrom at h
    split at h
    all_goals cases h
    all_goals exact BitVec.eq_of_toNat_eq ‹_›
  · rintro rfl
    cases x <;> rfl

/-- The integer immediate of a type, read after its tag. -/
def readImmInt (t : IntTy) : Decoder Operand := do
  let n ← readLE t.width t.bytes
  return .imm (.int t n)

/-- The payload of an operand whose kind tag has been read. -/
def decodePayload (tag : U8) : Decoder Operand :=
  match tag.toNat with
  | 0x00 => do return .slot (.local_ (← readU8))
  | 0x01 => do return .slot (.global (← readLE 16 2))
  | 0x04 => do return .slot (.tmp (← readU8))
  | 0x02 => do return .slot (.derefLocal (← readU8))
  | 0x03 => do return .slot (.derefGlobal (← readLE 16 2))
  | 0x05 => do return .slot (.derefTmp (← readU8))
  | 0x06 => do return .slot (.builtIn (← BuiltIn.tryFrom (← readU8)))
  | 0x10 => do return .imm (.bool (← readBool))
  | 0x11 => readImmInt .int8
  | 0x12 => readImmInt .int16
  | 0x13 => readImmInt .int32
  | 0x14 => readImmInt .int64
  | 0x15 => readImmInt .uint8
  | 0x16 => readImmInt .uint16
  | 0x17 => readImmInt .uint32
  | 0x18 => readImmInt .uint64
  | 0x19 => do return .imm (.float32 (← readLE 32 4))
  | 0x1A => do return .imm (.float64 (← readLE 64 8))
  | 0x1B => return .imm .null
  | 0x1C => do return .imm (.str (← readString))
  | 0x20 => do return .funcRef (← readLE 16 2)
  | 0x21 => do return .labelTarget (← readLE 32 4)
  | 0x22 => do return .syscallId (← readLE 32 4)
  | 0x23 => do return .type (← FasmType.tryFrom (← readU8))
  | 0x24 => do return .key (← readLE 32 4)
  | 0x25 => do return .required (← readBool)
  | n => Parser.fail ("Unknown operand tag 0x" ++ hex2 n)

/-- `decode_operand`. -/
def decodeOperand : Decoder Operand := do
  let tag ← readU8
  decodePayload tag

/-- `decode_instruction`. -/
def decodeInstruction : Decoder Instruction := do
  let opcode ← Opcode.tryFrom (← readU8)
  let nops ← readU8
  let operands ← decodeOperand.count nops.toNat
  return ⟨opcode, operands⟩

/-- The per-param loop body of `decode_program`. -/
def decodeParam : Decoder ParamDescriptor := do
  let key ← readLE 32 4
  let fasmType ← FasmType.tryFrom (← readU8)
  let required ← readBool
  let name ← readString
  return { key, fasmType, name, required }

/-- The per-function loop body of `decode_program`. -/
def decodeFunction : Decoder FunctionDef := do
  let name ← readString
  let nparams ← readLE 32 4
  let params ← decodeParam.count nparams.toNat
  let ninstrs ← readLE 32 4
  let instructions ← decodeInstruction.count ninstrs.toNat
  return { name, params, instructions }

/-- `decode_program` over the cursor. -/
def decodeProgramAt : Decoder Program := do
  let m ← readBytes 4
  if m ≠ magic then
    Parser.fail "Invalid magic bytes — not a FASMC file"
  else do
    let version ← readU8
    let nglobals ← readLE 32 4
    let globalInits ← decodeInstruction.count nglobals.toNat
    let nfuncs ← readLE 32 4
    let functions ← decodeFunction.count nfuncs.toNat
    return { version, globalInits, functions }

/-- `decode_program`: what follows the last function is not looked at. -/
def decodeProgram (data : List U8) : Except String Program :=
  (decodeProgramAt data).map Prod.fst

end Fasm
