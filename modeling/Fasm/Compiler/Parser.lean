import Fasm.Compiler.Lexer

/-!
# The parser

`parser.rs`.  The position in the token list is the current token and the tokens after
it; `advance` stays at the last token.  Loops and the recursion of `TRY` blocks are by
fuel; a cursor on `n` tokens needs no more than `3 * n + 3`.
-/

namespace Fasm

/-- `Parser`: the current token and the tokens after it. -/
structure Cursor where
  cur : Token
  rest : List Token

/-- Parsing from a cursor on. -/
abbrev ParseM := StateT Cursor (Except CompileFail)

/-- `is_keyword`. -/
def isKeyword (s : String) : Bool :=
  ["FUNC", "ENDF", "PARAM", "LOCAL", "CALL", "ASYNC", "RET", "SYSCALL", "AWAIT",
    "RESERVE", "RELEASE", "MOV", "STORE", "ADDR", "ADD", "SUB", "MUL", "DIV", "MOD", "NEG",
    "EQ", "NEQ", "LT", "LTE", "GT", "GTE", "AND", "OR", "XOR", "NOT", "SHL", "SHR",
    "JMP", "JZ", "JNZ", "LABEL", "PUSH", "POP", "ENQUEUE", "DEQUEUE", "PEEK",
    "TMP_BLOCK", "END_TMP",
    "GET_IDX", "SET_IDX", "GET_FIELD", "SET_FIELD", "HAS_FIELD", "DEL_FIELD", "LEN",
    "CAST", "TRY", "CATCH", "ENDTRY", "IMPORT", "INCLUDE", "DEFINE", "IFDEF",
    "IFNDEF", "ELSE", "ENDIF", "MACRO", "ENDM", "ASSERT",
    "SOME", "IS_SOME", "UNWRAP", "OK", "ERR", "IS_OK", "UNWRAP_OK", "UNWRAP_ERR",
    "HALT", "TAIL_CALL",
    "PREPEND", "POP_BACK", "PEEK_BACK",
    "VEC_SORT", "VEC_FILTER", "VEC_MERGE", "VEC_SLICE",
    "SPARSE_GET", "SPARSE_SET", "SPARSE_DEL", "SPARSE_HAS",
    "BTREE_GET", "BTREE_SET", "BTREE_DEL", "BTREE_HAS", "BTREE_MIN", "BTREE_MAX",
    "BIT_SET", "BIT_CLR", "BIT_GET", "BIT_FLIP", "BIT_COUNT", "BIT_AND", "BIT_OR", "BIT_XOR",
    "BIT_GROW",
    "BITVEC_READ", "BITVEC_WRITE", "BITVEC_PUSH"].contains s

/-- The type names of `parse_fasm_type`. -/
def typeNames : List (String × FasmType) :=
  [("BOOL", .bool), ("INT8", .int .int8), ("INT16", .int .int16), ("INT32", .int .int32),
    ("INT64", .int .int64), ("UINT8", .int .uint8), ("UINT16", .int .uint16),
    ("UINT32", .int .uint32), ("UINT64", .int .uint64), ("FLOAT32", .float32),
    ("FLOAT64", .float64), ("REF_MUT", .refMut), ("REF_IMM", .refImm), ("VEC", .vec),
    ("STRUCT", .struct), ("STACK", .stack), ("QUEUE", .queue), ("HEAP_MIN", .heapMin),
    ("HEAP_MAX", .heapMax), ("SPARSE", .sparse), ("BTREE", .btree), ("SLICE", .slice),
    ("DEQUE", .deque), ("BITSET", .bitset), ("BITVEC", .bitvec), ("OPTION", .option),
    ("RESULT", .result), ("FUTURE", .future)]

/-- `parse_fasm_type`. -/
def parseFasmType (s : String) : Option FasmType := typeNames.lookup s

namespace ParseM

/-- `peek`. -/
def peek : ParseM Token := do return (← get).cur

/-- `advance`: the current token; the last one stays current. -/
def advance : ParseM Token := do
  let c ← get
  match c.rest with
  | [] => pure ()
  | t :: rest => set (Cursor.mk t rest)
  return c.cur

/-- `line`. -/
def line : ParseM Nat := do return (← peek).line

/-- An `Err` that starts with the line. -/
def fail {α : Type} (line : Nat) (msg : String) : ParseM α := lineError line msg

variable (u : Unicode)

/-- An `Err` about a token that is not what was expected. -/
def unexpected {α : Type} (t : Token) (expected : String) : ParseM α :=
  fail t.line ("expected " ++ expected ++ ", got " ++ t.kind.debug u)

/-- `expect_ident`. -/
def expectIdent : ParseM String := do
  let t ← advance
  match t.kind with
  | .ident s => return s
  | _ => unexpected u t "identifier"

/-- `expect_comma`. -/
def expectComma : ParseM Unit := do
  let t ← advance
  if t.kind = .comma then return () else unexpected u t "','"

/-- `expect_string`. -/
def expectString : ParseM String := do
  let t ← advance
  match t.kind with
  | .stringLit s => return s
  | _ => unexpected u t "string literal"

/-- `parse_value`. -/
def parseValue : ParseM AstValue := do
  let t ← advance
  match t.kind with
  | .integer n => return .integer n
  | .hexInteger n => return .hexInt n
  | .float f => return .float f
  | .stringLit s => return .str s
  | .ident s =>
    if s = "NULL" then return .null
    else if s = "TRUE" then return .true_
    else if s = "FALSE" then return .false_
    else return .ident s
  | .ampersand => return .deref (← expectIdent u)
  | _ => unexpected u t "value"

/-- `parse_type`. -/
def parseType : ParseM FasmType := do
  let t ← advance
  match t.kind with
  | .ident s =>
    match parseFasmType s with
    | some ty => return ty
    | none => fail t.line ("unknown type '" ++ s ++ "'")
  | _ => unexpected u t "type name"

/-- `parse_u32`: the low 32 bits of a literal that is not negative. -/
def parseU32 : ParseM U32 := do
  let t ← advance
  match t.kind with
  | .integer n => if 0 ≤ n.toInt then return n.setWidth 32 else unexpected u t "u32"
  | .hexInteger n => return n.setWidth 32
  | _ => unexpected u t "u32"

/-- `parse_u8`. -/
def parseU8 : ParseM U8 := do
  let v ← parseU32 u
  if 255 < v.toNat then
    throw (.error ("Local slot index " ++ toString v.toNat ++ " out of range (0-255)"))
  else return v.setWidth 8

/-- `parse_operand_list`: up to a keyword, the end, or an operand without a comma after it. -/
def parseOperandList : Nat → ParseM (List AstValue)
  | 0 => throw .diverges
  | fuel + 1 => do
    let t ← peek
    let stop : Bool := match t.kind with
      | .eof => true
      | .ident s => isKeyword s
      | _ => false
    if stop then return []
    -- a dereferenced operand is read as `parse_value` reads it
    let op ← parseValue u
    if (← peek).kind = .comma then
      let _ ← advance
      return op :: (← parseOperandList fuel)
    else return [op]

mutual

/-- `parse_statement`. -/
def parseStatement : Nat → ParseM Statement
  | 0 => throw .diverges
  | fuel + 1 => do
    let ln ← line
    let t ← peek
    match t.kind with
    | .ident kw =>
      if kw = "TRY" then parseTryBlock fuel
      else if kw = "LOCAL" then do
        let _ ← advance
        let index ← parseU8 u
        expectComma u
        let fasmType ← parseType u
        expectComma u
        let name ← expectIdent u
        return .local_ ⟨index, fasmType, name, ln⟩
      else if kw = "LABEL" then do
        let _ ← advance
        return .label (← expectIdent u) ln
      else do
        let _ ← advance
        if kw = "ASYNC" then
          let next ← expectIdent u
          return .instr ⟨"ASYNC_" ++ next, ← parseOperandList u fuel, ln⟩
        else return .instr ⟨kw, ← parseOperandList u fuel, ln⟩
    | _ => unexpected u ⟨t.kind, ln⟩ "statement"

/-- `parse_try_block`. -/
def parseTryBlock : Nat → ParseM Statement
  | 0 => throw .diverges
  | fuel + 1 => do
    let ln ← line
    let _ ← advance
    let (body, catchBody) ← parseTryBody ln false fuel
    return .tryBlock ("__catch_" ++ toString ln) ("__endtry_" ++ toString ln) body catchBody ln

/-- The loop of `parse_try_block`: the statements before and after `CATCH`. -/
def parseTryBody (ln : Nat) (inCatch : Bool) : Nat → ParseM (List Statement × List Statement)
  | 0 => throw .diverges
  | fuel + 1 => do
    let t ← peek
    if t.kind = .eof then fail ln "unterminated TRY block"
    else if t.kind = .ident "CATCH" then do
      let _ ← advance
      parseTryBody ln true fuel
    else if t.kind = .ident "ENDTRY" then do
      let _ ← advance
      return ([], [])
    else do
      let stmt ← parseStatement fuel
      let (body, catchBody) ← parseTryBody ln inCatch fuel
      return if inCatch then (body, stmt :: catchBody) else (stmt :: body, catchBody)

end

/-- `parse_param`. -/
def parseParam : ParseM ParamDecl := do
  let ln ← line
  let _ ← advance
  let key ← parseValue u
  expectComma u
  let fasmType ← parseType u
  expectComma u
  let name ← expectIdent u
  expectComma u
  let reqStr ← expectIdent u
  if reqStr = "REQUIRED" then return ⟨key, fasmType, name, true, ln⟩
  else if reqStr = "OPTIONAL" then return ⟨key, fasmType, name, false, ln⟩
  else fail ln ("expected REQUIRED or OPTIONAL, got '" ++ reqStr ++ "'")

/-- The loop of `parse_function`. -/
def parseFunctionBody (ln : Nat) (name : String) : Nat → ParseM (List ParamDecl × List Statement)
  | 0 => throw .diverges
  | fuel + 1 => do
    let t ← peek
    if t.kind = .eof then fail ln ("unterminated FUNC '" ++ name ++ "'")
    else if t.kind = .ident "ENDF" then do
      let _ ← advance
      return ([], [])
    else if t.kind = .ident "PARAM" then do
      let param ← parseParam u
      let (params, body) ← parseFunctionBody ln name fuel
      return (param :: params, body)
    else do
      let stmt ← parseStatement u fuel
      let (params, body) ← parseFunctionBody ln name fuel
      return (params, stmt :: body)

/-- `parse_function`. -/
def parseFunction (fuel : Nat) : ParseM Function := do
  let ln ← line
  let _ ← advance
  let name ← expectIdent u
  let (params, body) ← parseFunctionBody u ln name fuel
  return ⟨name, params, body, ln⟩

/-- `parse_program`. -/
def parseProgram : Nat → ParseM ProgramAst
  | 0 => throw .diverges
  | fuel + 1 => do
    let ln ← line
    let t ← peek
    match t.kind with
    | .eof => return ⟨[], [], [], []⟩
    | .ident kw =>
      if kw = "DEFINE" then do
        let _ ← advance
        let name ← expectIdent u
        expectComma u
        let value ← parseValue u
        let prog ← parseProgram fuel
        return { prog with defines := ⟨name, value, ln⟩ :: prog.defines }
      else if kw = "IMPORT" then do
        let _ ← advance
        let path ← expectString u
        let _ ← expectIdent u
        let alias_ ← expectIdent u
        let prog ← parseProgram fuel
        return { prog with imports := ⟨path, alias_, ln⟩ :: prog.imports }
      else if kw = "RESERVE" then do
        let _ ← advance
        let index ← parseU32 u
        expectComma u
        let fasmType ← parseType u
        expectComma u
        let init ← parseValue u
        let prog ← parseProgram fuel
        return { prog with globalReserves := ⟨index, fasmType, init, ln⟩ :: prog.globalReserves }
      else if kw = "FUNC" then do
        let func ← parseFunction u fuel
        let prog ← parseProgram fuel
        return { prog with functions := func :: prog.functions }
      else fail ln ("unexpected top-level keyword '" ++ kw ++ "'")
    | kind => fail ln ("unexpected token " ++ kind.debug u)

end ParseM

/-- `parse`: an empty token list is indexed out of bounds. -/
def parse (u : Unicode) : List Token → Except CompileFail ProgramAst
  | [] => .error .panics
  | t :: rest => do
    let (prog, _) ← (ParseM.parseProgram u (3 * (rest.length + 1) + 3)).run ⟨t, rest⟩
    return prog

end Fasm
