import Fasm.Bytecode.Instruction

/-!
# Tokens and syntax trees

`token.rs` and `ast.rs`.  An `i64` is kept as its 64 bits, an `f64` as its bit
pattern.
-/

namespace Fasm

/-- How compiling can fail: with the message of an `Err`, by recursion or iteration without
end, or by a panic. -/
inductive CompileFail where
  | error (msg : String)
  | diverges
  | panics
deriving DecidableEq, Repr

/-- `TokenKind`. -/
inductive TokenKind where
  | integer (n : U64)
  | hexInteger (n : U64)
  | float (bits : U64)
  | stringLit (s : String)
  | ident (s : String)
  | comma
  | ampersand
  | dot
  | eof
deriving DecidableEq, Repr

/-- `Token`. -/
structure Token where
  kind : TokenKind
  line : Nat
deriving DecidableEq, Repr

/-- `AstValue`: an operand expression before resolution. -/
inductive AstValue where
  | ident (name : String)
  | integer (n : U64)
  | hexInt (n : U64)
  | float (bits : U64)
  | deref (name : String)
  | str (s : String)
  | null
  | true_
  | false_
deriving DecidableEq, Repr

/-- `Define`. -/
structure Define where
  name : String
  value : AstValue
  line : Nat
deriving DecidableEq, Repr

/-- `Import`. -/
structure Import where
  path : String
  alias_ : String
  line : Nat
deriving DecidableEq, Repr

/-- `GlobalReserve`. -/
structure GlobalReserve where
  index : U32
  fasmType : FasmType
  init : AstValue
  line : Nat
deriving DecidableEq, Repr

/-- `ParamDecl`. -/
structure ParamDecl where
  key : AstValue
  fasmType : FasmType
  name : String
  required : Bool
  line : Nat
deriving DecidableEq, Repr

/-- `LocalDecl`. -/
structure LocalDecl where
  index : U8
  fasmType : FasmType
  name : String
  line : Nat
deriving DecidableEq, Repr

/-- `Instr`: one instruction with its operand expressions. -/
structure Instr where
  mnemonic : String
  operands : List AstValue
  line : Nat
deriving DecidableEq, Repr

/-- `Statement`, inside a function body. -/
inductive Statement where
  | local_ (decl : LocalDecl)
  | label (name : String) (line : Nat)
  | instr (i : Instr)
  | tryBlock (catchLabel endLabel : String) (body catchBody : List Statement) (line : Nat)

/-- `Function`. -/
structure Function where
  name : String
  params : List ParamDecl
  body : List Statement
  line : Nat

/-- `ProgramAst`. -/
structure ProgramAst where
  defines : List Define
  imports : List Import
  globalReserves : List GlobalReserve
  functions : List Function

end Fasm
