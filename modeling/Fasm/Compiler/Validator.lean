import Fasm.Compiler.Parser

/-!
# The validator

`validator.rs`.  A `HashSet` of names is a list here; only membership is asked.
-/

namespace Fasm

/-- Insert the names of the functions, or fail at the first one that is there already. -/
def collectFunctions : List Function → List String → Except CompileFail (List String)
  | [], names => .ok names
  | f :: fs, names =>
    if names.contains f.name then
      lineError f.line ("duplicate function name '" ++ f.name ++ "'")
    else collectFunctions fs (f.name :: names)

mutual

/-- `collect_labels`, for one statement. -/
def collectLabelsOf : Statement → List String → Except CompileFail (List String)
  | .label name line, labels =>
    if labels.contains name then lineError line ("duplicate label '" ++ name ++ "'")
    else .ok (name :: labels)
  | .tryBlock _ _ body catchBody _, labels => do
    collectLabels catchBody (← collectLabels body labels)
  | .local_ _, labels => .ok labels
  | .instr _, labels => .ok labels

/-- `collect_labels`. -/
def collectLabels : List Statement → List String → Except CompileFail (List String)
  | [], labels => .ok labels
  | stmt :: stmts, labels => do collectLabels stmts (← collectLabelsOf stmt labels)

end

/-- The identifier that an operand is, if it is one. -/
def AstValue.asIdent : AstValue → Option String
  | .ident s => some s
  | _ => none

/-- What the validation of a body looks names up in. -/
structure Scope where
  funcs : List String
  labels : List String
  funcName : String

/-- `validate_instr`.  Identifiers that are not declared are let through. -/
def validateInstr (scope : Scope) (declared : List String) (tmpDepth : Nat) (instr : Instr) :
    Except CompileFail Unit := do
  if instr.mnemonic ∈ ["JMP", "JZ", "JNZ"] then
    if 0 < tmpDepth then
      lineError instr.line
        "jump instruction not allowed inside TMP_BLOCK (must remain atomic)"
    match instr.operands.getLast?.bind AstValue.asIdent with
    | some label =>
      if !scope.labels.contains label then
        lineError instr.line
          ("undefined label '" ++ label ++ "' in function '" ++ scope.funcName ++ "'")
    | none => pure ()
  else if instr.mnemonic ∈ ["CALL", "ASYNC_CALL"] then
    match instr.operands.head?.bind AstValue.asIdent with
    | some name =>
      if !scope.funcs.contains name then
        lineError instr.line ("call to undefined function '" ++ name ++ "'")
    | none => pure ()
  for op in instr.operands do
    match op with
    | .deref name =>
      if !declared.contains name then
        lineError instr.line
          ("dereference of undeclared slot '" ++ name ++ "' in '" ++ scope.funcName ++ "'")
    | _ => pure ()

mutual

/-- `validate_statements`, for one statement: the declared names and the `TMP` depth after it. -/
def validateStatement (scope : Scope) :
    Statement → List String × Nat → Except CompileFail (List String × Nat)
  | .local_ decl, (declared, tmpDepth) => .ok (decl.name :: declared, tmpDepth)
  | .label _ _, st => .ok st
  | .instr instr, (declared, tmpDepth) => do
    let tmpDepth := if instr.mnemonic = "TMP_BLOCK" then tmpDepth + 1 else tmpDepth
    validateInstr scope declared tmpDepth instr
    if instr.mnemonic = "END_TMP" then
      if tmpDepth = 0 then lineError instr.line "END_TMP without TMP_BLOCK"
      else return (declared, tmpDepth - 1)
    else return (declared, tmpDepth)
  | .tryBlock _ _ body catchBody _, st => do
    validateStatements scope catchBody (← validateStatements scope body st)

/-- `validate_statements`. -/
def validateStatements (scope : Scope) :
    List Statement → List String × Nat → Except CompileFail (List String × Nat)
  | [], st => .ok st
  | stmt :: stmts, st => do validateStatements scope stmts (← validateStatement scope stmt st)

end

/-- `validate_function`. -/
def validateFunction (prog : ProgramAst) (funcs : List String) (func : Function) :
    Except CompileFail Unit := do
  let declared := prog.defines.map Define.name ++
    ["$args", "$ret", "$fault_code", "$fault_index", "NULL", "TRUE", "FALSE"] ++
    func.params.map ParamDecl.name
  let labels ← collectLabels func.body []
  let (_, tmpDepth) ← validateStatements ⟨funcs, labels, func.name⟩ func.body (declared, 0)
  if 0 < tmpDepth then
    throw (.error ("Function '" ++ func.name ++ "': unclosed TMP_BLOCK"))

/-- `validate`. -/
def validate (prog : ProgramAst) : Except CompileFail Unit := do
  let funcs ← collectFunctions prog.functions []
  if !funcs.contains "Main" then
    throw (.error "No 'Main' function found in program")
  for func in prog.functions do
    validateFunction prog funcs func

end Fasm
