import Fasm.Bytecode.Types

/-!
# Instructions and programs

The instruction model of `instruction.rs` and the program container of
`program.rs`.  Floats are kept as their bit patterns, so equality of immediates
is equality of bits.
-/

namespace Fasm

/-- `BuiltIn`: the special symbols `$args`, `$ret`, `$fault_index`, `$fault_code`. -/
inductive BuiltIn where
  | args | ret | faultIndex | faultCode
deriving DecidableEq, Repr

/-- `SlotRef`. -/
inductive SlotRef where
  | local_ (idx : U8)
  | global (idx : U16)
  | tmp (idx : U8)
  | derefLocal (idx : U8)
  | derefGlobal (idx : U16)
  | derefTmp (idx : U8)
  | builtIn (b : BuiltIn)
deriving DecidableEq, Repr

/-- `Immediate`; `float32` and `float64` hold the IEEE bit pattern. -/
inductive Immediate where
  | bool (b : Bool)
  | int (t : IntTy) (n : BitVec t.width)
  | float32 (bits : U32)
  | float64 (bits : U64)
  | null
  | str (s : String)
deriving DecidableEq, Repr

/-- `Operand`. -/
inductive Operand where
  | slot (s : SlotRef)
  | imm (i : Immediate)
  | funcRef (idx : U16)
  | labelTarget (ip : U32)
  | syscallId (id : U32)
  | type (t : FasmType)
  | key (k : U32)
  | required (r : Bool)
deriving DecidableEq, Repr

/-- `Instruction`. -/
structure Instruction where
  opcode : Opcode
  operands : List Operand
deriving DecidableEq, Repr

/-- `Instruction::no_args`. -/
def Instruction.noArgs (opcode : Opcode) : Instruction := ⟨opcode, []⟩

/-- `ParamDescriptor`. -/
structure ParamDescriptor where
  key : U32
  fasmType : FasmType
  name : String
  required : Bool
deriving DecidableEq, Repr

/-- `FunctionDef`. -/
structure FunctionDef where
  name : String
  params : List ParamDescriptor
  instructions : List Instruction
deriving DecidableEq, Repr

/-- `Program`. -/
structure Program where
  version : U8
  globalInits : List Instruction
  functions : List FunctionDef
deriving DecidableEq, Repr

namespace Program

/-- `Program::new`. -/
def new : Program := ⟨0x01, [], []⟩

/-- `Program::get_function_index`. -/
def getFunctionIndex (p : Program) (name : String) : Option Nat :=
  p.functions.findIdx? fun f => f.name == name

/-- The index of a named function is an index into `functions`. -/
theorem getFunctionIndex_lt {p : Program} {name : String} {i : Nat}
    (h : p.getFunctionIndex name = some i) : i < p.functions.length := by
  rw [getFunctionIndex, List.findIdx?_eq_some_iff_getElem] at h
  exact h.1

end Program

end Fasm
