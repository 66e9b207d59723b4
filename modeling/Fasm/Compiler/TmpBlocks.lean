import Fasm.Compiler.Frontend
import Fasm.Compiler.Layout

/-!
# Blocks of `TMP` registers in the code

The validator counts the `TMP_BLOCK`s that are open in the text of a function, and the
code is in the order of the text.  So the blocks that are open at a position can be read
off the code before it, and in the code of an accepted function every `END_TMP` closes
one of them.
-/

namespace Fasm

/-! ## Open blocks -/

/-- The `TMP_BLOCK`s that are open after an instruction at `ip`, the innermost first. -/
def Opcode.openTmp (op : Opcode) (ip : Nat) (opened : List Nat) : List Nat :=
  match op with
  | .tmpBlock => ip :: opened
  | .endTmp => opened.tail
  | _ => opened

theorem Opcode.openTmp_of_not {op : Opcode} (h : op.setsTmp = false) (ip : Nat)
    (opened : List Nat) : op.openTmp ip opened = opened := by
  cases op with
  | tmpBlock | endTmp => cases h
  | _ => rfl

/-- The positions of the `TMP_BLOCK`s that are open at `ip` in the text of a function, the
innermost first: the static nesting at `ip`. -/
def FunctionDef.tmpBlocks (func : FunctionDef) : (ip : Nat) → List Nat
  | 0 => []
  | ip + 1 =>
    match func.instructions[ip]? with
    | some instr => instr.opcode.openTmp ip (func.tmpBlocks ip)
    | none => func.tmpBlocks ip

theorem FunctionDef.tmpBlocks_succ {func : FunctionDef} {ip : Nat} {instr : Instruction}
    (h : func.instructions[ip]? = some instr) :
    func.tmpBlocks (ip + 1) = instr.opcode.openTmp ip (func.tmpBlocks ip) := by
  rw [tmpBlocks, h]

/-- A block that is open after an instruction was open before, or the instruction opens it. -/
theorem FunctionDef.tmpBlocks_succ_cases {func : FunctionDef} {ip q : Nat} {instr : Instruction}
    {opened : List Nat} (hinstr : func.instructions[ip]? = some instr)
    (h : (q :: opened) <:+ func.tmpBlocks (ip + 1)) :
    (instr.opcode = .tmpBlock ∧ ip = q ∧ func.tmpBlocks ip = opened) ∨
      (q :: opened) <:+ func.tmpBlocks ip := by
  rw [tmpBlocks_succ hinstr] at h
  by_cases hop : instr.opcode.setsTmp = false
  · rw [Opcode.openTmp_of_not hop] at h
    exact .inr h
  obtain ⟨op, ops⟩ := instr
  cases op with
  | tmpBlock =>
    rcases List.suffix_cons_iff.mp h with heq | h
    · cases heq
      exact .inl ⟨rfl, rfl, rfl⟩
    · exact .inr h
  | endTmp => exact .inr (h.trans (List.tail_suffix _))
  | _ => exact absurd rfl hop

/-! ## The count of the validator -/

/-- The number of open blocks after an instruction, unless it closes one where none is open. -/
def Opcode.countTmp (op : Opcode) (depth : Nat) : Option Nat :=
  match op with
  | .tmpBlock => some (depth + 1)
  | .endTmp => if depth = 0 then none else some (depth - 1)
  | _ => some depth

theorem Opcode.countTmp_of_not {op : Opcode} (h : op.setsTmp = false) (depth : Nat) :
    op.countTmp depth = some depth := by
  cases op with
  | tmpBlock | endTmp => cases h
  | _ => rfl

/-- The number of open blocks after code, unless it closes one where none is open. -/
def countTmp (code : List Instruction) (depth : Nat) : Option Nat :=
  code.foldlM (fun depth instr => instr.opcode.countTmp depth) depth

theorem countTmp_append (code code' : List Instruction) (depth : Nat) :
    countTmp (code ++ code') depth = (countTmp code depth).bind (countTmp code') :=
  List.foldlM_append

theorem countTmp_cons (instr : Instruction) (code : List Instruction) (depth : Nat) :
    countTmp (instr :: code) depth = (instr.opcode.countTmp depth).bind (countTmp code) :=
  List.foldlM_cons

theorem countTmp_singleton (instr : Instruction) (depth : Nat) :
    countTmp [instr] depth = instr.opcode.countTmp depth := by
  rw [countTmp_cons]
  cases instr.opcode.countTmp depth <;> rfl

/-- In code that never closes a block where none is open, the count is the number of open
blocks. -/
theorem FunctionDef.length_tmpBlocks {func : FunctionDef} {final : Nat}
    (h : countTmp func.instructions 0 = some final) (ip : Nat) :
    countTmp (func.instructions.take ip) 0 = some (func.tmpBlocks ip).length := by
  induction ip with
  | zero => rfl
  | succ ip ih =>
    rw [List.take_add_one]
    cases hinstr : func.instructions[ip]? with
    | none =>
      rw [tmpBlocks, hinstr, Option.toList_none, List.append_nil]
      exact ih
    | some instr =>
      rw [tmpBlocks_succ hinstr, Option.toList_some, countTmp_append, ih, Option.bind_some,
        countTmp_singleton]
      obtain ⟨op, ops⟩ := instr
      by_cases hop : op.setsTmp = false
      · rw [Opcode.countTmp_of_not hop, Opcode.openTmp_of_not hop]
      cases op with
      | tmpBlock => rfl
      | endTmp =>
        -- the whole code is counted, so a block is open here
        obtain ⟨hlt, hget⟩ := List.getElem?_eq_some_iff.mp hinstr
        have hall := List.take_append_drop ip func.instructions
        rw [List.drop_eq_getElem_cons hlt, hget] at hall
        rw [← hall, countTmp_append, ih, Option.bind_some, countTmp_cons] at h
        simp only [Opcode.countTmp] at h ⊢
        split
        case isTrue hzero => rw [if_pos hzero] at h; cases h
        case isFalse => simp only [Opcode.openTmp, List.length_tail]
      | _ => exact absurd rfl hop

/-- There an `END_TMP` has a block to close. -/
theorem FunctionDef.tmpBlocks_ne_nil {func : FunctionDef} {final : Nat}
    (h : countTmp func.instructions 0 = some final) {ip : Nat} {ops : List Operand}
    (hend : func.instructions[ip]? = some ⟨.endTmp, ops⟩) : func.tmpBlocks ip ≠ [] := by
  intro hnil
  have hnext := func.length_tmpBlocks h (ip + 1)
  rw [List.take_add_one, hend, countTmp_append, func.length_tmpBlocks h ip, hnil] at hnext
  cases hnext

/-! ## Accepted functions -/

/-- The opcodes of the instruction table do not open or close blocks. -/
theorem setsTmp_of_mem_instrTable {name : String} {opcode : Opcode} {shapes : List Shape}
    (h : (name, opcode, shapes) ∈ instrTable) : opcode.setsTmp = false := by
  have hall : instrTable.all (fun entry => !entry.2.1.setsTmp) = true := by decide
  have hentry := List.all_eq_true.mp hall _ h
  simpa using hentry

namespace FuncCtx

variable (ctx : FuncCtx)

/-- What an instruction does to the count is told by its mnemonic. -/
theorem emitInstr_countTmp {instr : Instr} {code : Instruction}
    (h : ctx.emitInstr instr = .ok code) (depth : Nat) :
    code.opcode.countTmp depth =
      if instr.mnemonic = "TMP_BLOCK" then some (depth + 1)
      else if instr.mnemonic = "END_TMP" then if depth = 0 then none else some (depth - 1)
      else some depth := by
  cases ctx.instrEmits_of_emitInstr h with
  | tmpBlock hm => rw [if_pos hm]; rfl
  | endTmp hm => rw [if_neg (by rw [hm]; decide), if_pos hm]; rfl
  | ret hm | retVal hm => rw [if_neg (by rw [hm]; decide), if_neg (by rw [hm]; decide)]; rfl
  | table htmp hend _ hlookup _ =>
    rw [if_neg htmp, if_neg hend]
    exact Opcode.countTmp_of_not (setsTmp_of_mem_instrTable (mem_of_lookup hlookup)) depth

/-- An accepted instruction changes the count as the validator does. -/
theorem countTmp_emitInstr {scope : Scope} {instr : Instr} {code : Instruction}
    {declared : List String} {depth : Nat} {st : List String × Nat}
    (hv : validateStatement scope (.instr instr) (declared, depth) = .ok st)
    (h : ctx.emitInstr instr = .ok code) : code.opcode.countTmp depth = some st.2 := by
  rw [ctx.emitInstr_countTmp h]
  rw [validateStatement] at hv
  obtain ⟨-, -, hv⟩ := bind_eq_ok hv
  by_cases hm : instr.mnemonic = "TMP_BLOCK"
  · have hne : instr.mnemonic ≠ "END_TMP" := by rw [hm]; decide
    simp only [if_pos hm, if_neg hne] at hv ⊢
    cases hv
    rfl
  · simp only [if_neg hm] at hv ⊢
    by_cases hm' : instr.mnemonic = "END_TMP"
    · simp only [if_pos hm'] at hv ⊢
      split at hv
      case isTrue => cases hv
      case isFalse hpos => cases hv; rw [if_neg hpos]
    · simp only [if_neg hm'] at hv ⊢
      cases hv
      rfl

mutual

/-- The code of an accepted statement changes the count as the validator does. -/
theorem countTmp_emitStatement {scope : Scope} : ∀ (stmt : Statement) {code : List Instruction}
    {st st' : List String × Nat}, validateStatement scope stmt st = .ok st' →
    ctx.emitStatement stmt = .ok code → countTmp code st.2 = some st'.2
  | .local_ _, code, st, st', hv, h => by
    cases h
    cases hv
    rfl
  | .label _ _, code, st, st', hv, h => by
    cases h
    cases hv
    rfl
  | .instr instr, code, (declared, depth), st', hv, h => by
    obtain ⟨c, hc, h⟩ := bind_eq_ok h
    cases h
    rw [countTmp_singleton]
    exact ctx.countTmp_emitInstr hv hc
  | .tryBlock _ _ body catchBody _, code, st, st', hv, h => by
    obtain ⟨st₁, hv₁, hv₂⟩ := bind_eq_ok hv
    obtain ⟨bodyCode, hbody, h⟩ := bind_eq_ok h
    obtain ⟨catchCode, hcatch, h⟩ := bind_eq_ok h
    cases h
    have h₁ := countTmp_emitStatements body hv₁ hbody
    have h₂ := countTmp_emitStatements catchBody hv₂ hcatch
    -- `TRY`, `CATCH` and `ENDTRY` leave the count
    have htry : ∀ ops, countTmp (⟨.try_, ops⟩ :: bodyCode) st.2 = some st₁.2 := fun _ => h₁
    have hcatch' : ∀ ops, countTmp (⟨.catch_, ops⟩ :: catchCode) st₁.2 = some st'.2 := fun _ => h₂
    rw [countTmp_append, countTmp_append, htry, Option.bind_some, hcatch']
    rfl

/-- The same for statements. -/
theorem countTmp_emitStatements {scope : Scope} : ∀ (stmts : List Statement)
    {code : List Instruction} {st st' : List String × Nat},
    validateStatements scope stmts st = .ok st' → ctx.emitStatements stmts = .ok code →
    countTmp code st.2 = some st'.2
  | [], code, st, st', hv, h => by
    cases h
    cases hv
    rfl
  | stmt :: stmts, code, st, st', hv, h => by
    obtain ⟨st₁, hv₁, hv₂⟩ := bind_eq_ok hv
    obtain ⟨c₁, h₁, h⟩ := bind_eq_ok h
    obtain ⟨c₂, h₂, h⟩ := bind_eq_ok h
    cases h
    rw [countTmp_append, countTmp_emitStatement stmt hv₁ h₁]
    exact countTmp_emitStatements stmts hv₂ h₂

end

end FuncCtx

/-- The code of an accepted function never closes a block where none is open, and leaves none
open. -/
theorem Function.CompilesTo.countTmp {ast : ProgramAst} {f : Function} {fd : FunctionDef}
    (h : f.CompilesTo ast fd) {funcs : List String} (hv : validateFunction ast funcs f = .ok ()) :
    Fasm.countTmp fd.instructions 0 = some 0 := by
  obtain ⟨params, -, h⟩ := bind_eq_ok h
  obtain ⟨code, hcode, h⟩ := bind_eq_ok h
  cases h
  obtain ⟨labels, -, hv⟩ := bind_eq_ok hv
  obtain ⟨⟨declared, depth⟩, hst, hv⟩ := bind_eq_ok hv
  have hcount := FuncCtx.countTmp_emitStatements _ f.body hst hcode
  simp only at hv
  split at hv
  case isTrue => cases hv
  case isFalse hzero =>
    rw [Nat.not_lt.mp hzero |> Nat.le_zero.mp] at hcount
    exact hcount

/-- No function closes a block where none is open, or leaves one open. -/
def Program.TmpClosed (p : Program) : Prop :=
  ∀ (i : Nat) (fd : FunctionDef), p.functions[i]? = some fd → countTmp fd.instructions 0 = some 0

/-- In a program that a source compiles to the blocks are closed. -/
theorem compileSource_tmpClosed {u : Unicode} {src : String} {p : Program}
    (hp : compileSource u src = .ok p) : p.TmpClosed := by
  intro i fd hfd
  obtain ⟨ast, hast, hemit⟩ := bind_eq_ok hp
  obtain ⟨f, hf, hcomp⟩ := emit_function hemit hfd
  obtain ⟨funcs, hv⟩ := frontend_accepts hast (List.mem_of_getElem? hf)
  exact hcomp.countTmp hv

end Fasm
