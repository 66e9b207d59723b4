import Fasm.Compiler.Validator

/-!
# The emitter

`emitter.rs`.  A `HashMap` from names is an association list with the latest insertion
first.  Names resolve through `DEFINE`s recursively and the code does not look for
cycles; a chain of more steps than there are `DEFINE`s has met one of them twice, and
then recurses for ever.
-/

namespace Fasm

/-- What is found under a key is listed with it. -/
theorem mem_of_lookup {α β : Type} [BEq α] [LawfulBEq α] {k : α} {b : β} {l : List (α × β)}
    (h : l.lookup k = some b) : (k, b) ∈ l := by
  obtain ⟨l₁, l₂, rfl, -⟩ := List.lookup_eq_some_iff.mp h
  exact List.mem_append_right _ List.mem_cons_self

/-- `FuncCtx`, as far as instructions are resolved by it. -/
structure FuncCtx where
  defines : List (String × AstValue)
  funcIndexMap : List (String × U16)
  locals : List (String × U8)
  labelPositions : List (String × U32)

/-! ## First pass -/

/-- What the first pass collects, and the `ip` it has come to. -/
structure FirstPass where
  locals : List (String × U8)
  labels : List (String × U32)
  ip : U32

/-- Go on past one instruction. -/
def FirstPass.next (st : FirstPass) : FirstPass := { st with ip := st.ip + 1 }

/-- Insert a label at the current `ip`. -/
def FirstPass.insertLabel (st : FirstPass) (name : String) : FirstPass :=
  { st with labels := (name, st.ip) :: st.labels }

mutual

/-- `collect_locals_and_labels`, for one statement. -/
def collectStatement : Statement → FirstPass → FirstPass
  | .local_ decl, st => { st with locals := (decl.name, decl.index) :: st.locals }.next
  | .label name _, st => st.insertLabel name
  | .instr _, st => st.next
  | .tryBlock catchLabel endLabel body catchBody _, st =>
    let st := (collectStatements body st.next).insertLabel catchLabel
    let st := (collectStatements catchBody st.next).insertLabel endLabel
    st.next

/-- `collect_locals_and_labels`. -/
def collectStatements : List Statement → FirstPass → FirstPass
  | [], st => st
  | stmt :: stmts, st => collectStatements stmts (collectStatement stmt st)

end

/-! ## Names -/

/-- Decimal digits with an optional sign, as `str::parse` takes them. -/
def splitSign : List Char → Bool × List Char
  | '+' :: ds => (false, ds)
  | '-' :: ds => (true, ds)
  | ds => (false, ds)

/-- `str::parse::<u8>`. -/
def parseU8Str (cs : List Char) : Option U8 :=
  let (negative, ds) := splitSign cs
  if negative || ds.isEmpty || !ds.all Char.isDigit then none
  else if ofDecimal ds ≤ 255 then some (.ofNat 8 (ofDecimal ds)) else none

/-- `str::parse::<i64>`. -/
def parseI64Str (cs : List Char) : Option U64 :=
  let (negative, ds) := splitSign cs
  if ds.isEmpty || !ds.all Char.isDigit then none else parseI64 negative ds

/-- The register that a name of the form `t0` … `t15` denotes. -/
def tmpIndex (name : String) : Option U8 :=
  match name.toList with
  | 't' :: rest => (parseU8Str rest).filter fun n => n.toNat ≤ 15
  | _ => none

/-- The special symbols. -/
def builtInNames : List (String × BuiltIn) :=
  [("$args", .args), ("$ret", .ret), ("$fault_code", .faultCode), ("$fault_index", .faultIndex)]

/-- `ast_val_to_slot`. -/
def astValToSlot (ctx : FuncCtx) : AstValue → Option SlotRef
  | .deref name =>
    match tmpIndex name with
    | some n => some (.derefTmp n)
    | none => (ctx.locals.lookup name).map .derefLocal
  | .ident name =>
    match builtInNames.lookup name with
    | some b => some (.builtIn b)
    | none =>
      if name.toList.head? = some 't' then
        match tmpIndex name with
        | some n => some (.tmp n)
        | none => (ctx.locals.lookup name).map .local_
      else
        match ctx.locals.lookup name with
        | some idx => some (.local_ idx)
        | none =>
          match ctx.defines.lookup name with
          | some (.integer n) => some (.local_ (n.setWidth 8))
          | _ => none
  | .integer n => some (.local_ (n.setWidth 8))
  | .hexInt n => some (.local_ (n.setWidth 8))
  | _ => none

/-- `ast_value_to_operand`, through `fuel` names at most. -/
def astValueToOperand (defines : List (String × AstValue)) (locals : List (String × U8)) :
    (fuel : Nat) → AstValue → Except CompileFail Operand
  | 0, _ => .error .diverges
  | _ + 1, .null => .ok (.imm .null)
  | _ + 1, .true_ => .ok (.imm (.bool true))
  | _ + 1, .false_ => .ok (.imm (.bool false))
  | _ + 1, .integer n => .ok (.imm (.int .int32 (n.setWidth 32)))
  | _ + 1, .hexInt n => .ok (.imm (.int .uint32 (n.setWidth 32)))
  | _ + 1, .float f => .ok (.imm (.float64 f))
  | _ + 1, .str s => .ok (.imm (.str s))
  | _ + 1, .deref name =>
    match tmpIndex name with
    | some n => .ok (.slot (.derefTmp n))
    | none => .ok (.slot (.derefLocal ((locals.lookup name).getD 0)))
  | fuel + 1, .ident name =>
    match builtInNames.lookup name with
    | some b => .ok (.slot (.builtIn b))
    | none =>
      if name.toList.head? = some 't' then
        match tmpIndex name with
        | some n => .ok (.slot (.tmp n))
        | none => .ok (.slot (.local_ ((locals.lookup name).getD 0)))
      else
        match locals.lookup name with
        | some idx => .ok (.slot (.local_ idx))
        | none =>
          match defines.lookup name with
          | some value => astValueToOperand defines locals fuel value
          | none =>
            match parseI64Str name.toList with
            | some n => .ok (.imm (.int .int32 (n.setWidth 32)))
            | none => .ok (.slot (.local_ 0))

/-- `resolve_u32`, through `fuel` names at most. -/
def resolveU32 (defines : List (String × AstValue)) :
    (fuel : Nat) → AstValue → Except CompileFail U32
  | 0, _ => .error .diverges
  | _ + 1, .integer n => .ok (n.setWidth 32)
  | _ + 1, .hexInt n => .ok (n.setWidth 32)
  | fuel + 1, .ident name =>
    match defines.lookup name with
    | some value => resolveU32 defines fuel value
    | none => .ok 0
  | _ + 1, _ => .ok 0

/-- `resolve_syscall_id`, through `fuel` names at most. -/
def resolveSyscallId (defines : List (String × AstValue)) (ln : Nat) :
    (fuel : Nat) → AstValue → Except CompileFail U32
  | 0, _ => .error .diverges
  | _ + 1, .integer n => .ok (n.setWidth 32)
  | _ + 1, .hexInt n => .ok (n.setWidth 32)
  | fuel + 1, .ident name =>
    match defines.lookup name with
    | some value => resolveSyscallId defines ln fuel value
    | none => lineError ln ("undefined DEFINE for syscall id '" ++ name ++ "'")
  | _ + 1, _ => lineError ln "expected syscall id"

/-- `ast_val_type`: the parser's type names and `NULL`, which the parser does not leave as an
identifier. -/
def astValType : AstValue → Except CompileFail FasmType
  | .ident s =>
    match (typeNames ++ [("NULL", FasmType.null)]).lookup s with
    | some t => .ok t
    | none => .error (.error ("Unknown type '" ++ s ++ "'"))
  | _ => .error (.error "Expected type name")

/-- `label_op`. -/
def labelOp (labels : List (String × U32)) (ln : Nat) : AstValue → Except CompileFail Operand
  | .ident name =>
    match labels.lookup name with
    | some pos => .ok (.labelTarget pos)
    | none => lineError ln ("undefined label '" ++ name ++ "'")
  | _ => lineError ln "expected label name"

/-- `ast_ident`. -/
def astIdent : AstValue → Except CompileFail String
  | .ident s => .ok s
  | _ => .error (.error "Expected identifier")

/-! ## Instructions -/

/-- How an operand expression becomes an operand. -/
inductive Shape where
  | slot | val | key | type | label | func | syscall | filterOp
deriving DecidableEq

/-- The operands that `emit_instr` reads for a mnemonic, in order. -/
def instrTable : List (String × Opcode × List Shape) :=
  [("RESERVE", .reserve, [.slot, .type, .val]), ("RELEASE", .release, [.slot]),
    ("MOV", .mov, [.val, .slot]), ("STORE", .store, [.val, .slot]),
    ("ADDR", .addr, [.slot, .slot]),
    ("ADD", .add, [.val, .val, .slot]), ("SUB", .sub, [.val, .val, .slot]),
    ("MUL", .mul, [.val, .val, .slot]), ("DIV", .div, [.val, .val, .slot]),
    ("MOD", .mod, [.val, .val, .slot]), ("NEG", .neg, [.val, .slot]),
    ("EQ", .eq, [.val, .val, .slot]), ("NEQ", .neq, [.val, .val, .slot]),
    ("LT", .lt, [.val, .val, .slot]), ("LTE", .lte, [.val, .val, .slot]),
    ("GT", .gt, [.val, .val, .slot]), ("GTE", .gte, [.val, .val, .slot]),
    ("AND", .and, [.val, .val, .slot]), ("OR", .or, [.val, .val, .slot]),
    ("XOR", .xor, [.val, .val, .slot]), ("SHL", .shl, [.val, .val, .slot]),
    ("SHR", .shr, [.val, .val, .slot]), ("NOT", .not, [.val, .slot]),
    ("JMP", .jmp, [.label]), ("JZ", .jz, [.val, .label]), ("JNZ", .jnz, [.val, .label]),
    ("CALL", .call, [.func, .val]), ("ASYNC_CALL", .asyncCall, [.func, .val]),
    ("TAIL_CALL", .tailCall, [.func, .val]), ("HALT", .halt, []), ("AWAIT", .await, [.val, .slot]),
    ("SYSCALL", .syscall, [.syscall, .val]), ("ASYNC_SYSCALL", .asyncSyscall, [.syscall, .val]),
    ("PUSH", .push, [.slot, .val]), ("POP", .pop, [.slot, .slot]),
    ("ENQUEUE", .enqueue, [.slot, .val]), ("DEQUEUE", .dequeue, [.slot, .slot]),
    ("PEEK", .peek, [.slot, .slot]),
    ("GET_IDX", .getIdx, [.val, .val, .slot]), ("SET_IDX", .setIdx, [.slot, .val, .val]),
    ("GET_FIELD", .getField, [.val, .key, .slot]), ("SET_FIELD", .setField, [.slot, .key, .val]),
    ("HAS_FIELD", .hasField, [.val, .key, .slot]), ("DEL_FIELD", .delField, [.slot, .key]),
    ("LEN", .len, [.val, .slot]),
    ("SOME", .some_, [.slot, .val]), ("IS_SOME", .isSome, [.val, .slot]),
    ("UNWRAP", .unwrap, [.val, .slot]), ("OK", .ok_, [.slot, .val]), ("ERR", .err_, [.slot, .val]),
    ("IS_OK", .isOk, [.val, .slot]), ("UNWRAP_OK", .unwrapOk, [.val, .slot]),
    ("UNWRAP_ERR", .unwrapErr, [.val, .slot]),
    ("CAST", .cast, [.val, .type, .slot]),
    ("PREPEND", .prepend, [.slot, .val]), ("POP_BACK", .popBack, [.slot, .slot]),
    ("PEEK_BACK", .peekBack, [.slot, .slot]),
    ("VEC_SORT", .vecSort, [.slot]), ("VEC_FILTER", .vecFilter, [.val, .filterOp, .val, .slot]),
    ("VEC_MERGE", .vecMerge, [.val, .val, .slot]),
    ("VEC_SLICE", .vecSlice, [.val, .val, .val, .slot]),
    ("SPARSE_GET", .sparseGet, [.val, .val, .slot]),
    ("SPARSE_SET", .sparseSet, [.slot, .val, .val]), ("SPARSE_DEL", .sparseDel, [.slot, .val]),
    ("SPARSE_HAS", .sparseHas, [.val, .val, .slot]),
    ("BTREE_GET", .btreeGet, [.val, .val, .slot]), ("BTREE_SET", .btreeSet, [.slot, .val, .val]),
    ("BTREE_DEL", .btreeDel, [.slot, .val]), ("BTREE_HAS", .btreeHas, [.val, .val, .slot]),
    ("BTREE_MIN", .btreeMin, [.val, .slot]), ("BTREE_MAX", .btreeMax, [.val, .slot]),
    ("BIT_SET", .bitSet_, [.slot, .val]), ("BIT_CLR", .bitClr, [.slot, .val]),
    ("BIT_GET", .bitGet, [.val, .val, .slot]), ("BIT_FLIP", .bitFlip, [.slot, .val]),
    ("BIT_COUNT", .bitCount, [.val, .slot]), ("BIT_AND", .bitAnd, [.slot, .val]),
    ("BIT_OR", .bitOr, [.slot, .val]), ("BIT_XOR", .bitXor, [.slot, .val]),
    ("BIT_GROW", .bitGrow, [.slot, .val]),
    ("BITVEC_READ", .bitvecRead, [.val, .val, .val, .slot]),
    ("BITVEC_WRITE", .bitvecWrite, [.slot, .val, .val, .val]),
    ("BITVEC_PUSH", .bitvecPush, [.slot, .val, .val])]

/-- The comparison that `VEC_FILTER` is told by name. -/
def filterOps : List (String × U32) := [("OP_LT", 0), ("OP_EQ", 1), ("OP_GT", 2)]

namespace FuncCtx

variable (ctx : FuncCtx) (ln : Nat)

/-- The macro `val_op!`. -/
def valOp (v : AstValue) : Except CompileFail Operand :=
  astValueToOperand ctx.defines ctx.locals (ctx.defines.length + 1) v

/-- The macro `slot!`. -/
def slotOp (n : Nat) (v : AstValue) : Except CompileFail Operand :=
  match astValToSlot ctx v with
  | some s => .ok (.slot s)
  | none => lineError ln ("cannot resolve slot operand " ++ toString n)

/-- `key_op`. -/
def keyOp (v : AstValue) : Except CompileFail Operand :=
  (resolveU32 ctx.defines (ctx.defines.length + 1) v).map .key

/-- The function that a call names. -/
def funcOp (v : AstValue) : Except CompileFail Operand := do
  let funcName ← astIdent v
  match ctx.funcIndexMap.lookup funcName with
  | some idx => return .funcRef idx
  | none => lineError ln ("undefined function '" ++ funcName ++ "'")

/-- The comparison of a `VEC_FILTER`. -/
def filterOp (v : AstValue) : Except CompileFail Operand :=
  match v.asIdent.bind fun s => filterOps.lookup s with
  | some n => .ok (.imm (.int .uint32 n))
  | none => lineError ln "VEC_FILTER op must be OP_LT, OP_EQ, or OP_GT"

/-- The operand at position `n`, by its shape. -/
def resolve (n : Nat) (v : AstValue) : Shape → Except CompileFail Operand
  | .slot => ctx.slotOp ln n v
  | .val => ctx.valOp v
  | .key => ctx.keyOp v
  | .type => (astValType v).map .type
  | .label => labelOp ctx.labelPositions ln v
  | .func => ctx.funcOp ln v
  | .syscall =>
    (resolveSyscallId ctx.defines ln (ctx.defines.length + 1) v).map .syscallId
  | .filterOp => filterOp ln v

/-- The operands from position `n` on, by their shapes. -/
def resolveAll (instr : Instr) : Nat → List Shape → Except CompileFail (List Operand)
  | _, [] => .ok []
  | n, shape :: shapes =>
    match instr.operands[n]? with
    | none => lineError instr.line
        ("'" ++ instr.mnemonic ++ "' missing operand " ++ toString n)
    | some v => do
      return (← ctx.resolve instr.line n v shape) :: (← resolveAll instr (n + 1) shapes)

/-- `emit_instr`: it pushes one instruction. -/
def emitInstr (instr : Instr) : Except CompileFail Instruction :=
  if instr.mnemonic = "TMP_BLOCK" then .ok (.noArgs .tmpBlock)
  else if instr.mnemonic = "END_TMP" then .ok (.noArgs .endTmp)
  else if instr.mnemonic = "RET" then
    match instr.operands with
    | [] => .ok (.noArgs .ret)
    | v :: _ => do return ⟨.ret, [← ctx.valOp v]⟩
  else
    match instrTable.lookup instr.mnemonic with
    | some (opcode, shapes) => do return ⟨opcode, ← ctx.resolveAll instr 0 shapes⟩
    | none => lineError instr.line ("unknown instruction '" ++ instr.mnemonic ++ "'")

/-- The position of a synthetic label. -/
def labelIp (name : String) : U32 := (ctx.labelPositions.lookup name).getD 0

mutual

/-- `emit_statement`: the instructions it pushes. -/
def emitStatement : Statement → Except CompileFail (List Instruction)
  | .local_ decl =>
    .ok [⟨.reserve, [.slot (.local_ decl.index), .type decl.fasmType, .imm .null]⟩]
  | .label _ _ => .ok []
  | .instr instr => do return [← ctx.emitInstr instr]
  | .tryBlock catchLabel endLabel body catchBody _ => do
    let catchIp := ctx.labelIp catchLabel
    let endIp := ctx.labelIp endLabel
    let bodyCode ← emitStatements body
    let catchCode ← emitStatements catchBody
    return ⟨.try_, [.labelTarget catchIp, .labelTarget endIp]⟩ :: bodyCode ++
      ⟨.catch_, [.labelTarget endIp]⟩ :: catchCode ++ [.noArgs .endTry]

/-- `emit_statements`. -/
def emitStatements : List Statement → Except CompileFail (List Instruction)
  | [] => .ok []
  | stmt :: stmts => do return (← emitStatement stmt) ++ (← emitStatements stmts)

end

end FuncCtx

/-! ## Programs -/

/-- The context in which the body of a function is emitted. -/
def Function.ctx (defines : List (String × AstValue)) (funcIndexMap : List (String × U16))
    (func : Function) : FuncCtx :=
  let pass := collectStatements func.body ⟨[], [], 0⟩
  ⟨defines, funcIndexMap, pass.locals, pass.labels⟩

/-- The part of `emit` that does one function. -/
def emitFunction (defines : List (String × AstValue)) (funcIndexMap : List (String × U16))
    (func : Function) : Except CompileFail FunctionDef := do
  let params ← func.params.mapM fun p => do
    let key ← resolveU32 defines (defines.length + 1) p.key
    return (⟨key, p.fasmType, p.name, p.required⟩ : ParamDescriptor)
  let instructions ← (func.ctx defines funcIndexMap).emitStatements func.body
  return ⟨func.name, params, instructions⟩

/-- The part of `emit` that does one global. -/
def emitGlobal (defines : List (String × AstValue)) (gr : GlobalReserve) :
    Except CompileFail Instruction := do
  let init ← astValueToOperand defines [] (defines.length + 1) gr.init
  return ⟨.reserve, [.key gr.index, .type gr.fasmType, init]⟩

/-- The map of the `DEFINE`s: of two with one name the later counts. -/
def ProgramAst.defineMap (prog : ProgramAst) : List (String × AstValue) :=
  (prog.defines.map fun d => (d.name, d.value)).reverse

/-- The map of the functions to their indices, as `u16`. -/
def ProgramAst.funcIndexMap (prog : ProgramAst) : List (String × U16) :=
  (prog.functions.zipIdx.map fun (f, i) => (f.name, BitVec.ofNat 16 i)).reverse

/-- `emit`. -/
def emit (prog : ProgramAst) : Except CompileFail Program := do
  let globalInits ← prog.globalReserves.mapM (emitGlobal prog.defineMap)
  let functions ← prog.functions.mapM (emitFunction prog.defineMap prog.funcIndexMap)
  return { Program.new with globalInits, functions }

/-- The stages of `compile_source` before the emitter. -/
def frontend (u : Unicode) (source : String) : Except CompileFail ProgramAst := do
  let tokens ← tokenize u source
  let ast ← parse u tokens
  validate ast
  return ast

/-- `compile_source`. -/
def compileSource (u : Unicode) (source : String) : Except CompileFail Program := do
  emit (← frontend u source)

section Stages

variable {u : Unicode} {source : String} {tokens : List Token} {ast : ProgramAst} {p : Program}

theorem frontend_eq (htokens : tokenize u source = .ok tokens) (hast : parse u tokens = .ok ast)
    (hval : validate ast = .ok ()) : frontend u source = .ok ast := by
  rw [frontend, htokens]
  show (do let ast ← parse u tokens; validate ast; return ast : Except CompileFail ProgramAst) = _
  rw [hast]
  show (do validate ast; return ast : Except CompileFail ProgramAst) = _
  rw [hval]
  rfl

theorem compileSource_eq (hast : frontend u source = .ok ast) :
    compileSource u source = emit ast := by
  rw [compileSource, hast]
  rfl

end Stages

end Fasm
