import Fasm.Compiler.Layout

/-!
# The operands of emitted instructions

Every operand of an emitted instruction is what one operand expression of the statement
resolves to, in the way that the mnemonic has for its position.
-/

namespace Fasm

/-- How `emit_instr` reads the operands of an instruction. -/
def Instr.shapes (instr : Instr) : List Shape :=
  if instr.mnemonic = "TMP_BLOCK" ∨ instr.mnemonic = "END_TMP" then []
  else if instr.mnemonic = "RET" then if instr.operands = [] then [] else [.val]
  else ((instrTable.lookup instr.mnemonic).map Prod.snd).getD []

/-- The operands that a shape resolves to. -/
def Shape.gives : Shape → Operand → Bool
  | .slot, .slot _ => true
  | .val, .slot _ | .val, .imm _ => true
  | .key, .key _ => true
  | .type, .type _ => true
  | .label, .labelTarget _ => true
  | .func, .funcRef _ => true
  | .syscall, .syscallId _ => true
  | .filterOp, .imm (.int .uint32 _) => true
  | _, _ => false

section Shapes

variable {instr : Instr} {opcode : Opcode} {shapes : List Shape}

theorem Instr.shapes_ret (hm : instr.mnemonic = "RET") :
    instr.shapes = if instr.operands = [] then [] else [.val] := by
  rw [shapes, if_neg (by rw [hm]; decide), if_pos hm]

theorem Instr.shapes_table (htmp : instr.mnemonic ≠ "TMP_BLOCK") (hend : instr.mnemonic ≠ "END_TMP")
    (hret : instr.mnemonic ≠ "RET") (h : instrTable.lookup instr.mnemonic = some (opcode, shapes)) :
    instr.shapes = shapes := by
  rw [Instr.shapes, if_neg (not_or.mpr ⟨htmp, hend⟩), if_neg hret, h]
  rfl

/-- A mnemonic of the table has the shapes that it has there. -/
theorem Instr.shapes_eq (hm : instr.mnemonic ∉ ["TMP_BLOCK", "END_TMP", "RET"])
    (h : instrTable.lookup instr.mnemonic = some (opcode, shapes)) : instr.shapes = shapes := by
  simp only [List.mem_cons, List.not_mem_nil, or_false, not_or] at hm
  exact shapes_table hm.1 hm.2.1 hm.2.2 h

end Shapes

namespace FuncCtx

variable (ctx : FuncCtx)

/-- The operands from position `n` on are those of the operand expressions from there on. -/
theorem resolveAll_eq (instr : Instr) : ∀ (shapes : List Shape) {n : Nat} {ops : List Operand},
    ctx.resolveAll instr n shapes = .ok ops →
    ops.length = shapes.length ∧ ∀ {i : Nat} {shape : Shape}, shapes[i]? = some shape →
      ∃ v op, instr.operands[n + i]? = some v ∧ ops[i]? = some op ∧
        ctx.resolve instr.line (n + i) v shape = .ok op
  | [], n, ops, h => by
    cases h
    exact ⟨rfl, nofun⟩
  | shape :: shapes, n, ops, h => by
    rw [resolveAll] at h
    split at h
    case h_1 => cases h
    case h_2 v hv =>
      obtain ⟨op, hop, h⟩ := bind_eq_ok h
      obtain ⟨ops', hops', h⟩ := bind_eq_ok h
      cases h
      obtain ⟨hlen, hall⟩ := resolveAll_eq instr shapes hops'
      refine ⟨congrArg (· + 1) hlen, ?_⟩
      intro i shape' hi
      cases i with
      | zero =>
        cases hi
        exact ⟨v, op, hv, rfl, hop⟩
      | succ i =>
        obtain ⟨v', op', hv', hop', hres⟩ := hall hi
        rw [Nat.add_right_comm] at hv' hres
        exact ⟨v', op', hv', hop', hres⟩

/-- The operands of an emitted instruction. -/
theorem emitInstr_eq {instr : Instr} {code : Instruction} (h : ctx.emitInstr instr = .ok code) :
    code.operands.length = instr.shapes.length ∧ ∀ {i : Nat} {shape : Shape},
      instr.shapes[i]? = some shape → ∃ v op, instr.operands[i]? = some v ∧
        code.operands[i]? = some op ∧ ctx.resolve instr.line i v shape = .ok op := by
  cases ctx.instrEmits_of_emitInstr h with
  | tmpBlock hm =>
    rw [Instr.shapes, if_pos (.inl hm)]
    exact ⟨rfl, nofun⟩
  | endTmp hm =>
    rw [Instr.shapes, if_pos (.inr hm)]
    exact ⟨rfl, nofun⟩
  | ret hm hnil =>
    rw [Instr.shapes_ret hm, if_pos hnil]
    exact ⟨rfl, nofun⟩
  | @retVal v vs op hm hcons hop =>
    rw [Instr.shapes_ret hm, if_neg (by rw [hcons]; nofun), hcons]
    refine ⟨rfl, ?_⟩
    intro i shape hi
    cases i with
    | zero =>
      cases hi
      exact ⟨v, op, rfl, rfl, hop⟩
    | succ i => cases hi
  | table htmp hend hret hlookup hops =>
    rw [Instr.shapes_table htmp hend hret hlookup]
    obtain ⟨hlen, hall⟩ := ctx.resolveAll_eq instr _ hops
    refine ⟨hlen, ?_⟩
    intro i shape hi
    obtain ⟨v, op, hv, hop, hres⟩ := hall hi
    rw [Nat.zero_add] at hv hres
    exact ⟨v, op, hv, hop, hres⟩

/-- A mnemonic of the table has the opcode that it has there. -/
theorem emitInstr_opcode {instr : Instr} {code : Instruction} {opcode : Opcode}
    {shapes : List Shape} (h : ctx.emitInstr instr = .ok code)
    (hm : instr.mnemonic ∉ ["TMP_BLOCK", "END_TMP", "RET"])
    (hlookup : instrTable.lookup instr.mnemonic = some (opcode, shapes)) : code.opcode = opcode := by
  simp only [List.mem_cons, List.not_mem_nil, or_false, not_or] at hm
  rw [emitInstr, if_neg hm.1, if_neg hm.2.1, if_neg hm.2.2, hlookup] at h
  obtain ⟨ops, -, h⟩ := bind_eq_ok h
  cases h
  rfl

/-- Every operand of an emitted instruction comes from an operand expression. -/
theorem exists_of_mem_operands {instr : Instr} {code : Instruction}
    (h : ctx.emitInstr instr = .ok code) {op : Operand} (hop : op ∈ code.operands) :
    ∃ i shape v, instr.shapes[i]? = some shape ∧ instr.operands[i]? = some v ∧
      ctx.resolve instr.line i v shape = .ok op := by
  obtain ⟨hlen, hall⟩ := ctx.emitInstr_eq h
  obtain ⟨i, hi, rfl⟩ := List.mem_iff_getElem.mp hop
  have hshape := List.getElem?_eq_getElem (hlen ▸ hi : i < instr.shapes.length)
  obtain ⟨v, op, hv, hop', hres⟩ := hall hshape
  cases (List.getElem?_eq_getElem hi).symm.trans hop'
  exact ⟨i, _, v, hshape, hv, hres⟩

/-- A value is a slot or an immediate. -/
theorem valOp_cases {v : AstValue} {op : Operand} (h : ctx.valOp v = .ok op) :
    (∃ s, op = .slot s) ∨ ∃ imm, op = .imm imm := by
  rw [valOp] at h
  generalize ctx.defines.length + 1 = fuel at h
  induction fuel generalizing v with
  | zero => cases h
  | succ fuel ih =>
    cases v with
    | ident name =>
      rw [astValueToOperand] at h
      split at h
      · cases h; exact .inl ⟨_, rfl⟩
      split at h
      · split at h <;> cases h <;> exact .inl ⟨_, rfl⟩
      split at h
      · cases h; exact .inl ⟨_, rfl⟩
      split at h
      · exact ih h
      split at h
      · cases h; exact .inr ⟨_, rfl⟩
      · cases h; exact .inl ⟨_, rfl⟩
    | deref name =>
      rw [astValueToOperand] at h
      split at h <;> cases h <;> exact .inl ⟨_, rfl⟩
    | _ => cases h; exact .inr ⟨_, rfl⟩

theorem gives_of_resolve {ln n : Nat} {v : AstValue} {op : Operand} {shape : Shape}
    (h : ctx.resolve ln n v shape = .ok op) : shape.gives op = true := by
  cases shape with
  | slot =>
    simp only [resolve, slotOp] at h
    split at h <;> cases h
    rfl
  | val => obtain ⟨s, rfl⟩ | ⟨imm, rfl⟩ := ctx.valOp_cases h <;> rfl
  | key =>
    obtain ⟨k, -, rfl⟩ := map_eq_ok h
    rfl
  | type =>
    obtain ⟨t, -, rfl⟩ := map_eq_ok h
    rfl
  | label =>
    simp only [resolve, labelOp] at h
    split at h
    case h_1 =>
      split at h <;> cases h
      rfl
    case h_2 => cases h
  | func =>
    obtain ⟨name, -, h⟩ := bind_eq_ok h
    split at h <;> cases h
    rfl
  | syscall =>
    obtain ⟨id, -, rfl⟩ := map_eq_ok h
    rfl
  | filterOp =>
    simp only [resolve, filterOp] at h
    split at h <;> cases h
    rfl

/-- A label operand is the position of a label. -/
theorem resolve_labelTarget {ln n : Nat} {v : AstValue} {shape : Shape} {pos : U32}
    (h : ctx.resolve ln n v shape = .ok (.labelTarget pos)) :
    shape = .label ∧ ∃ name, v = .ident name ∧ ctx.labelPositions.lookup name = some pos := by
  have hgives := ctx.gives_of_resolve h
  cases shape with
  | label =>
    refine ⟨rfl, ?_⟩
    simp only [resolve, labelOp] at h
    split at h
    case h_1 name =>
      split at h
      case h_1 pos' hpos => cases h; exact ⟨name, rfl, hpos⟩
      case h_2 => cases h
    case h_2 => cases h
  | _ => cases hgives

end FuncCtx

end Fasm
