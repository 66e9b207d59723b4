import Fasm.Compiler.Parser

/-!
# Turns of the parser's loops

A loop of the parser takes turns until one ends it.  What a turn does is the same in every turn,
so a loop is a turn and what is done with its result.
-/

namespace Fasm

variable {α β : Type}

namespace ParseM

/-- A turn of a loop: the loop goes on, or it ends. -/
inductive Turn (α ρ : Type) : Type
  | again (a : α)
  | done (r : ρ)

variable (u : Unicode)

/-- A turn of `parse_operand_list`: the operand that it reads, or the last ones. -/
def operandTurn : ParseM (Turn AstValue (List AstValue)) := do
  let t ← peek
  let stop : Bool := match t.kind with
    | .eof => true
    | .ident s => isKeyword s
    | _ => false
  if stop then return .done []
  let op ← parseValue u
  if (← peek).kind = .comma then
    let _ ← advance
    return .again op
  else return .done [op]

/-- A turn of `parse_try_block`: it reads a `CATCH` or a statement. -/
def tryTurn (ln fuel : Nat) : ParseM (Turn (Option Statement) Unit) := do
  let t ← peek
  if t.kind = .eof then fail ln "unterminated TRY block"
  else if t.kind = .ident "CATCH" then do
    let _ ← advance
    return .again none
  else if t.kind = .ident "ENDTRY" then do
    let _ ← advance
    return .done ()
  else do
    let stmt ← parseStatement u fuel
    return .again (some stmt)

/-- A turn of `parse_function`: it reads a `PARAM` or a statement. -/
def functionTurn (ln : Nat) (name : String) (fuel : Nat) :
    ParseM (Turn (ParamDecl ⊕ Statement) Unit) := do
  let t ← peek
  if t.kind = .eof then fail ln ("unterminated FUNC '" ++ name ++ "'")
  else if t.kind = .ident "ENDF" then do
    let _ ← advance
    return .done ()
  else if t.kind = .ident "PARAM" then do
    let param ← parseParam u
    return .again (.inl param)
  else do
    let stmt ← parseStatement u fuel
    return .again (.inr stmt)

/-- A turn of `parse_program`: it reads an item, which is put before those that are read later. -/
def programTurn (fuel : Nat) : ParseM (Turn (ProgramAst → ProgramAst) Unit) := do
  let ln ← line
  let t ← peek
  match t.kind with
  | .eof => return .done ()
  | .ident kw =>
    if kw = "DEFINE" then do
      let _ ← advance
      let name ← expectIdent u
      expectComma u
      let value ← parseValue u
      return .again fun prog => { prog with defines := ⟨name, value, ln⟩ :: prog.defines }
    else if kw = "IMPORT" then do
      let _ ← advance
      let path ← expectString u
      let _ ← expectIdent u
      let alias_ ← expectIdent u
      return .again fun prog => { prog with imports := ⟨path, alias_, ln⟩ :: prog.imports }
    else if kw = "RESERVE" then do
      let _ ← advance
      let index ← parseU32 u
      expectComma u
      let fasmType ← parseType u
      expectComma u
      let init ← parseValue u
      return .again fun prog =>
        { prog with globalReserves := ⟨index, fasmType, init, ln⟩ :: prog.globalReserves }
    else if kw = "FUNC" then do
      let func ← parseFunction u fuel
      return .again fun prog => { prog with functions := func :: prog.functions }
    else fail ln ("unexpected top-level keyword '" ++ kw ++ "'")
  | kind => fail ln ("unexpected token " ++ kind.debug u)

theorem ite_bind {c : Prop} [Decidable c] (x y : ParseM α) (f : α → ParseM β) :
    (if c then x else y) >>= f = if c then x >>= f else y >>= f := by
  split <;> rfl

theorem fail_bind (ln : Nat) (msg : String) (f : α → ParseM β) : fail ln msg >>= f = fail ln msg :=
  rfl

theorem parseOperandList_succ (fuel : Nat) :
    parseOperandList u (fuel + 1) = operandTurn u >>= fun
      | .again op => do return op :: (← parseOperandList u fuel)
      | .done ops => return ops := by
  rw [parseOperandList, operandTurn, bind_assoc]
  refine bind_congr fun t => ?_
  cases t.kind <;> simp only [bind_assoc, ite_bind, pure_bind]

theorem parseTryBody_succ (ln : Nat) (inCatch : Bool) (fuel : Nat) :
    parseTryBody u ln inCatch (fuel + 1) = tryTurn u ln fuel >>= fun
      | .again none => parseTryBody u ln true fuel
      | .again (some stmt) => do
        let (body, catchBody) ← parseTryBody u ln inCatch fuel
        return if inCatch then (body, stmt :: catchBody) else (stmt :: body, catchBody)
      | .done () => return ([], []) := by
  rw [parseTryBody, tryTurn]
  simp only [bind_assoc, ite_bind, pure_bind, fail_bind]

theorem parseFunctionBody_succ (ln : Nat) (name : String) (fuel : Nat) :
    parseFunctionBody u ln name (fuel + 1) = functionTurn u ln name fuel >>= fun
      | .again (.inl param) => do
        let (params, body) ← parseFunctionBody u ln name fuel
        return (param :: params, body)
      | .again (.inr stmt) => do
        let (params, body) ← parseFunctionBody u ln name fuel
        return (params, stmt :: body)
      | .done () => return ([], []) := by
  rw [parseFunctionBody, functionTurn]
  simp only [bind_assoc, ite_bind, pure_bind, fail_bind]

theorem parseProgram_succ (fuel : Nat) :
    parseProgram u (fuel + 1) = programTurn u fuel >>= fun
      | .again add => do return add (← parseProgram u fuel)
      | .done () => return ⟨[], [], [], []⟩ := by
  rw [parseProgram, programTurn, bind_assoc]
  refine bind_congr fun ln => ?_
  rw [bind_assoc]
  refine bind_congr fun t => ?_
  cases t.kind with
  | ident kw => simp only [bind_assoc, ite_bind, pure_bind, fail_bind]
  | _ => rfl

end ParseM

end Fasm
