import Fasm.Compiler.Defines
import Fasm.Compiler.TryTargets

/-!
# `PARAM` names as keys

The emitter collects the keys of the `PARAM`s of a function by name, and `key_op` does not look
there: a name in a key operand is that of a `DEFINE`, or stands for the key 0.
-/

namespace Fasm

/-- The key of a `PARAM`. -/
def ProgramAst.paramKey (ast : ProgramAst) (param : ParamDecl) : Except CompileFail U32 :=
  resolveU32 ast.defineMap (ast.defineMap.length + 1) param.key

/-- The instructions with a key operand, at position 1. -/
def fieldMnemonics : List String := ["GET_FIELD", "SET_FIELD", "HAS_FIELD", "DEL_FIELD"]

/-- The key operand of the instruction is the name. -/
def Instr.UsesKey (instr : Instr) (name : String) : Prop :=
  instr.mnemonic ∈ fieldMnemonics ∧ instr.operands[1]? = some (.ident name)

theorem Instr.UsesKey.shape {instr : Instr} {name : String} (h : instr.UsesKey name) :
    instr.shapes[1]? = some .key := by
  have hshapes : ∀ m ∈ fieldMnemonics, m ∉ ["TMP_BLOCK", "END_TMP", "RET"] ∧
      ((instrTable.lookup m).bind fun entry => entry.2[1]?) = some .key := by decide
  obtain ⟨hspecial, hkey⟩ := hshapes _ h.1
  obtain ⟨⟨opcode, shapes⟩, hlookup, hkey⟩ := Option.bind_eq_some_iff.mp hkey
  rw [Instr.shapes_eq hspecial hlookup]
  exact hkey

/-- The names of `PARAM`s denote their keys in the code of the function. -/
structure AliasesDenote (ast : ProgramAst) (f : Function) (fd : FunctionDef) : Prop where
  key : ∀ {instr next s}, Visits (f.emitCtx ast) f.body .start (.instr instr) next s →
    ∀ param ∈ f.params, instr.UsesKey param.name → ∃ c k, fd.instructions[s.out.length]? = some c ∧
      ast.paramKey param = .ok k ∧ c.operands[1]? = some (.key k)
  /-- a `GET_FIELD` of the arguments reads the field under the key of the `PARAM` -/
  read : ∀ {instr next s}, Visits (f.emitCtx ast) f.body .start (.instr instr) next s →
    ∀ param ∈ f.params, instr.UsesKey param.name → instr.mnemonic = "GET_FIELD" →
      instr.operands[0]? = some (.ident "$args") →
      ∃ c k, fd.instructions[s.out.length]? = some c ∧ ast.paramKey param = .ok k ∧
        ∀ {ω : Type} (host : Host ω) (p : Program) (e : Executor ω) (cf : CallFrame)
          (below : List CallFrame) (fields : List (U32 × Value)), e.callStack = cf :: below →
          cf.args = .struct fields →
          executeInstruction host p c e = (do
            let val ← (orFault (FasmStruct.get fields k) .fieldNotFound : Except Stop Value)
            writeVal (← c.getOp 2) val
            return .continue_ : ExecM ω Action) e

/-- The name has a `DEFINE` with the key, or no `DEFINE` at all and the key is 0. -/
def ProgramAst.NameHasKey (ast : ProgramAst) (name : String) (k : U32) : Prop :=
  (ast.defineMap.lookup name = none ∧ k = 0) ∨ ∃ value, ast.defineMap.lookup name = some value ∧
    resolveU32 ast.defineMap (ast.defineMap.length + 1) value = .ok k

/-- Every `PARAM` of the function whose name is used as a key has that key by a `DEFINE`, or has
the key 0. -/
def Function.AliasesKeyed (f : Function) (ast : ProgramAst) : Prop :=
  ∀ param ∈ f.params, ∀ instr, .instr instr ∈ partsOfAll f.body → instr.UsesKey param.name →
    ∀ k, ast.paramKey param = .ok k → ast.NameHasKey param.name k

section Params

variable {ast : ProgramAst} {f : Function} {fd : FunctionDef} {instr : Instr} {c : Instruction}
  {name : String}

/-- What the name resolves to. -/
theorem ProgramAst.nameHasKey_iff {k : U32} : ast.NameHasKey name k ↔
    resolveU32 ast.defineMap (ast.defineMap.length + 1) (.ident name) = .ok k := by
  rw [NameHasKey]
  cases hname : ast.defineMap.lookup name with
  | none =>
    rw [resolveU32_undefined hname]
    constructor
    · rintro (⟨-, rfl⟩ | ⟨value, hvalue, -⟩)
      · rfl
      · cases hvalue
    · intro hk
      cases hk
      exact .inl ⟨rfl, rfl⟩
  | some value =>
    rw [resolveU32_define hname]
    constructor
    · rintro (⟨hnone, -⟩ | ⟨value', hvalue, hk⟩)
      · cases hnone
      · cases hvalue
        exact hk
    · exact fun hk => .inr ⟨value, rfl, hk⟩

/-- The key operand of an instruction that uses the name. -/
theorem Function.CompilesTo.key_iff {ctx : FuncCtx} (hctx : ctx = f.emitCtx ast)
    (h : ctx.emitInstr instr = .ok c) (huse : instr.UsesKey name) (k : U32) :
    c.operands[1]? = some (.key k) ↔ ast.NameHasKey name k := by
  subst hctx
  obtain ⟨v, op, hv, hop, hres⟩ := (FuncCtx.emitInstr_eq _ h).2 huse.shape
  cases huse.2.symm.trans hv
  have hdef : (f.emitCtx ast).defines = ast.defineMap := rfl
  simp only [FuncCtx.resolve, FuncCtx.keyOp, hdef] at hres
  rw [ProgramAst.nameHasKey_iff, hop]
  cases hkey : resolveU32 ast.defineMap (ast.defineMap.length + 1) (.ident name) with
  | error e => rw [hkey] at hres; cases hres
  | ok k' =>
    rw [hkey] at hres
    cases hres
    constructor
    · intro hk
      cases hk
      rfl
    · intro hk
      cases hk
      rfl

/-- In a compiled function the keys of the `PARAM`s resolve. -/
theorem Function.CompilesTo.paramKey_ok (h : f.CompilesTo ast fd) {param : ParamDecl}
    (hparam : param ∈ f.params) : ∃ k, ast.paramKey param = .ok k := by
  obtain ⟨params, hparams, -⟩ := bind_eq_ok h
  obtain ⟨i, hi, rfl⟩ := List.mem_iff_getElem.mp hparam
  have hlen := length_of_mapM hparams
  have hget := List.getElem?_eq_getElem (hlen.symm ▸ hi : i < params.length)
  obtain ⟨param', hparam', hmap⟩ := getElem?_of_mapM hparams hget
  cases (List.getElem?_eq_getElem hi).symm.trans hparam'
  obtain ⟨k, hk, -⟩ := bind_eq_ok hmap
  exact ⟨k, hk⟩

/-- A `GET_FIELD` of the arguments with a key operand. -/
theorem getField_args {ctx : FuncCtx} (h : ctx.emitInstr instr = .ok c)
    (hm : instr.mnemonic = "GET_FIELD") (hargs : instr.operands[0]? = some (.ident "$args"))
    {k : U32} (hkey : c.operands[1]? = some (.key k)) {ω : Type} (host : Host ω) (p : Program)
    (e : Executor ω) {cf : CallFrame} {below : List CallFrame} {fields : List (U32 × Value)}
    (hstack : e.callStack = cf :: below) (hfields : cf.args = .struct fields) :
    executeInstruction host p c e = (do
      let val ← (orFault (FasmStruct.get fields k) .fieldNotFound : Except Stop Value)
      writeVal (← c.getOp 2) val
      return .continue_ : ExecM ω Action) e := by
  have hspecial : instr.mnemonic ∉ ["TMP_BLOCK", "END_TMP", "RET"] := by rw [hm]; decide
  have hlookup : instrTable.lookup instr.mnemonic = some (.getField, [.val, .key, .slot]) := by
    rw [hm]
    rfl
  have hop := ctx.emitInstr_opcode h hspecial hlookup
  have hshapes := Instr.shapes_eq hspecial hlookup
  have hshape : instr.shapes[0]? = some .val := by rw [hshapes]; rfl
  obtain ⟨v, op, hv, hget, hres⟩ := (ctx.emitInstr_eq h).2 hshape
  cases hargs.symm.trans hv
  have hop₀ : op = .slot (.builtIn .args) := by
    simp only [FuncCtx.resolve, FuncCtx.valOp, astValueToOperand] at hres
    cases hres
    rfl
  subst hop₀
  have h₀ : c.getOp 0 = .ok (.slot (.builtIn .args)) := by rw [Instruction.getOp, hget]; rfl
  have h₁ : c.getOp 1 = .ok (.key k) := by rw [Instruction.getOp, hkey]; rfl
  have hread : e.readOperand (.slot (.builtIn .args)) = .ok (.struct fields) := by
    simp only [Executor.readOperand, Executor.readSlot, Executor.last, hstack]
    rw [← hfields]
    rfl
  rw [executeInstruction, hop]
  refine (bind_run_ok (a := .key k) (by rw [h₁]; rfl)).trans ?_
  refine (bind_run_ok (a := k) rfl).trans ?_
  refine (bind_run_ok (a := .slot (.builtIn .args)) (by rw [h₀]; rfl)).trans ?_
  refine (bind_run_ok (a := .struct fields) (by rw [readVal, ExecM.reads, hread]; rfl)).trans ?_
  rfl

/-- **`PARAM` names denote their keys** exactly where they have them by a `DEFINE`, or the key
is 0. -/
theorem param_aliases_iff {u : Unicode} {src : String} {p : Program} {i : Nat}
    (hast : frontend u src = .ok ast) (hp : compileSource u src = .ok p)
    (hf : ast.functions[i]? = some f) (hfd : p.functions[i]? = some fd) :
    AliasesDenote ast f fd ↔ f.AliasesKeyed ast := by
  rw [compileSource_eq hast] at hp
  obtain ⟨f', hf', hcomp⟩ := emit_function hp hfd
  cases hf.symm.trans hf'
  have hcode := hcomp.code_eq
  constructor
  · intro h param hparam instr hinstr huse k hk
    obtain ⟨next, s, hv⟩ := visits_of_mem_partsOfAll _ f.body .start hcode _ hinstr
    obtain ⟨c, k', hat, hk', hkey⟩ := h.key hv param hparam huse
    cases hk.symm.trans hk'
    obtain ⟨c', hc', hat'⟩ := hv.instr_at hcode
    cases hat.symm.trans hat'
    exact (Function.CompilesTo.key_iff rfl hc' huse k).mp hkey
  · intro h
    have hkey : ∀ {instr next s}, Visits (f.emitCtx ast) f.body .start (.instr instr) next s →
        ∀ param ∈ f.params, instr.UsesKey param.name → ∃ c k,
          (f.emitCtx ast).emitInstr instr = .ok c ∧ fd.instructions[s.out.length]? = some c ∧
          ast.paramKey param = .ok k ∧ c.operands[1]? = some (.key k) := by
      intro instr next s hv param hparam huse
      obtain ⟨c, hc, hat⟩ := hv.instr_at hcode
      obtain ⟨k, hk⟩ := hcomp.paramKey_ok hparam
      have hname := h param hparam instr hv.mem_parts huse k hk
      exact ⟨c, k, hc, hat, hk, (Function.CompilesTo.key_iff rfl hc huse k).mpr hname⟩
    constructor
    · intro instr next s hv param hparam huse
      obtain ⟨c, k, -, hat, hk, hop⟩ := hkey hv param hparam huse
      exact ⟨c, k, hat, hk, hop⟩
    · intro instr next s hv param hparam huse hm hargs
      obtain ⟨c, k, hc, hat, hk, hop⟩ := hkey hv param hparam huse
      exact ⟨c, k, hat, hk, fun host p e cf below fields => getField_args hc hm hargs hop host p e⟩

end Params

section Example

/-- A function that reads its `PARAM` by name, under the key 0. -/
def zeroKeySource : String :=
  "FUNC Main\nPARAM 0, INT32, n, REQUIRED\nGET_FIELD $args, n, 0\nRET 0\nENDF"

private def zeroKeyTokens : List Token :=
  [⟨.ident "FUNC", 1⟩, ⟨.ident "Main", 1⟩, ⟨.ident "PARAM", 2⟩, ⟨.integer 0, 2⟩, ⟨.comma, 2⟩,
    ⟨.ident "INT32", 2⟩, ⟨.comma, 2⟩, ⟨.ident "n", 2⟩, ⟨.comma, 2⟩, ⟨.ident "REQUIRED", 2⟩,
    ⟨.ident "GET_FIELD", 3⟩, ⟨.ident "$args", 3⟩, ⟨.comma, 3⟩, ⟨.ident "n", 3⟩, ⟨.comma, 3⟩,
    ⟨.integer 0, 3⟩, ⟨.ident "RET", 4⟩, ⟨.integer 0, 4⟩, ⟨.ident "ENDF", 5⟩, ⟨.eof, 5⟩]

/-- A function that reads its `PARAM` with the key by name, and its code. -/
def byNameFunction (key : U64) : Function :=
  ⟨"Main", [⟨.integer key, .int .int32, "n", true, 2⟩],
    [.instr ⟨"GET_FIELD", [.ident "$args", .ident "n", .integer 0], 3⟩,
      .instr ⟨"RET", [.integer 0], 4⟩], 1⟩

/-- The code: the key operand is 0. -/
def byNameCode (key : U32) : FunctionDef :=
  ⟨"Main", [⟨key, .int .int32, "n", true⟩],
    [⟨.getField, [.slot (.builtIn .args), .key 0, .slot (.local_ 0)]⟩,
      ⟨.ret, [.imm (.int .int32 0)]⟩]⟩

private theorem zeroKey_tokens : tokenize .ascii zeroKeySource = .ok zeroKeyTokens := (rfl)

theorem zeroKey_frontend : frontend .ascii zeroKeySource = .ok ⟨[], [], [], [byNameFunction 0]⟩ :=
  frontend_eq zeroKey_tokens rfl rfl

theorem zeroKey_compiles : compileSource .ascii zeroKeySource = .ok ⟨1, [], [byNameCode 0]⟩ :=
  (compileSource_eq zeroKey_frontend).trans rfl

theorem param_aliases_iff_zeroKey :
    AliasesDenote ⟨[], [], [], [byNameFunction 0]⟩ (byNameFunction 0) (byNameCode 0) ↔
      (byNameFunction 0).AliasesKeyed ⟨[], [], [], [byNameFunction 0]⟩ :=
  param_aliases_iff zeroKey_frontend zeroKey_compiles (i := 0) rfl rfl

/-- The same function with the key 7. -/
def sevenKeySource : String :=
  "FUNC Main\nPARAM 7, INT32, n, REQUIRED\nGET_FIELD $args, n, 0\nRET 0\nENDF"

private def sevenKeyTokens : List Token :=
  [⟨.ident "FUNC", 1⟩, ⟨.ident "Main", 1⟩, ⟨.ident "PARAM", 2⟩, ⟨.integer 7, 2⟩, ⟨.comma, 2⟩,
    ⟨.ident "INT32", 2⟩, ⟨.comma, 2⟩, ⟨.ident "n", 2⟩, ⟨.comma, 2⟩, ⟨.ident "REQUIRED", 2⟩,
    ⟨.ident "GET_FIELD", 3⟩, ⟨.ident "$args", 3⟩, ⟨.comma, 3⟩, ⟨.ident "n", 3⟩, ⟨.comma, 3⟩,
    ⟨.integer 0, 3⟩, ⟨.ident "RET", 4⟩, ⟨.integer 0, 4⟩, ⟨.ident "ENDF", 5⟩, ⟨.eof, 5⟩]

private theorem sevenKey_tokens : tokenize .ascii sevenKeySource = .ok sevenKeyTokens := (rfl)

theorem sevenKey_frontend :
    frontend .ascii sevenKeySource = .ok ⟨[], [], [], [byNameFunction 7]⟩ :=
  frontend_eq sevenKey_tokens rfl rfl

/-- The `GET_FIELD` of the `PARAM` with the key 7 reads the field 0. -/
theorem sevenKey_reads_zero :
    compileSource .ascii sevenKeySource = .ok ⟨1, [], [byNameCode 7]⟩ ∧
      ¬ AliasesDenote ⟨[], [], [], [byNameFunction 7]⟩ (byNameFunction 7) (byNameCode 7) := by
  refine ⟨(compileSource_eq sevenKey_frontend).trans rfl, fun h => ?_⟩
  obtain ⟨c, k, hat, hk, hkey⟩ := h.key .here _ (.head _) ⟨by decide, rfl⟩
  cases hat
  cases hk
  exact absurd hkey (by decide)

end Example

end Fasm
