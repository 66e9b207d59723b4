import Fasm.Compiler.Uses
import Fasm.Vm.Inspects
import Mathlib.Data.List.Forall2

/-!
# The emitter and the executor agree on operands

The emitter lays the operands of an instruction out by the shapes of `instrTable`; the executor
inspects them as in `Opcode.inspected`.  That the two tables fit is a computation.  So no
emitted instruction stops at an operand, and each inspects all it has, but for `CATCH`.
-/

namespace Fasm

/-! ## The two tables -/

/-- The ways of looking at an operand that every operand of the shape allows. -/
def Kind.accepts : Kind → Shape → Bool
  | .value, .val | .value, .slot | .value, .filterOp => true
  | .key, .key => true
  | .type, .type => true
  | .label, .label => true
  | .func, .func => true
  | .syscall, .syscall => true
  | .init, _ | .address, _ | .release, _ => true
  | .write, .slot | .update, .slot => true
  | _, _ => false

theorem takes_of_gives {shape : Shape} {kind : Kind} {op : Operand} (h : shape.gives op = true)
    (hkind : kind.accepts shape = true) : kind.takes op = true := by
  cases shape <;> cases op <;> first
    | exact absurd h Bool.false_ne_true
    | cases kind <;> first | rfl | cases hkind

/-- The looks fit the shapes: each finds an operand that it accepts, and none is left out. -/
def Fit (looks : List (Nat × Kind)) (shapes : List Shape) : Prop :=
  (∀ look ∈ looks, (shapes[look.1]?.any look.2.accepts) = true) ∧
    ∀ n < shapes.length, n ∈ looks.map Prod.fst

instance (looks : List (Nat × Kind)) (shapes : List Shape) : Decidable (Fit looks shapes) :=
  inferInstanceAs (Decidable (_ ∧ _))

/-- Every mnemonic lays its operands out as its opcode inspects them. -/
theorem fit_of_mem_instrTable {mnemonic : String} {opcode : Opcode} {shapes : List Shape}
    (h : (mnemonic, opcode, shapes) ∈ instrTable) :
    Fit opcode.inspected shapes ∧ opcode ≠ .ret := by
  have hall : ∀ row ∈ instrTable, Fit row.2.1.inspected row.2.2 ∧ row.2.1 ≠ .ret := by
    decide +kernel
  exact hall _ h

/-! ## Emitted instructions -/

/-- The instruction has what its arm inspects, and nothing else unless it is a `CATCH`. -/
structure Instruction.WellShaped (instr : Instruction) : Prop where
  finds : Arm.Finds instr.operands instr.inspected
  inspects : ∀ n < instr.operands.length, (∃ kind, (n, kind) ∈ instr.inspected) ↔
    instr.opcode ≠ .catch_

/-- Where the operands have the shapes that the looks fit, the instruction has what its arm
inspects. -/
theorem Fit.wellShaped {instr : Instruction} {shapes : List Shape}
    (hfit : Fit instr.inspected shapes) (hne : instr.opcode ≠ .catch_)
    (hops : List.Forall₂ (fun shape op => shape.gives op = true) shapes instr.operands) :
    instr.WellShaped := by
  obtain ⟨hlen, hget⟩ := List.forall₂_iff_get.mp hops
  constructor
  · intro n kind hmem
    obtain ⟨shape, hshape, haccepts⟩ := Option.any_eq_true _ _ |>.mp (hfit.1 _ hmem)
    obtain ⟨hn, rfl⟩ := List.getElem?_eq_some_iff.mp hshape
    have hn' : n < instr.operands.length := hlen ▸ hn
    exact ⟨_, List.getElem?_eq_getElem hn', takes_of_gives (hget n hn hn') haccepts⟩
  · intro n hn
    obtain ⟨⟨m, kind⟩, hmem, rfl⟩ := List.mem_map.mp (hfit.2 n (hlen ▸ hn))
    exact iff_of_true ⟨kind, hmem⟩ hne

/-! ### The instructions that the emitter adds -/

theorem wellShaped_reserve (s : SlotRef) (t : FasmType) (i : Immediate) :
    Instruction.WellShaped ⟨.reserve, [.slot s, .type t, .imm i]⟩ := by
  have hfit : Fit [(1, .type), (2, .init), (0, .write)] [.slot, .type, .val] := by decide
  have hfit' : Fit (Instruction.inspected ⟨.reserve, [.slot s, .type t, .imm i]⟩) _ := hfit
  exact hfit'.wellShaped nofun (.cons rfl (.cons rfl (.cons rfl .nil)))

theorem wellShaped_try (catchIp endIp : U32) :
    Instruction.WellShaped ⟨.try_, [.labelTarget catchIp, .labelTarget endIp]⟩ := by
  have hfit : Fit [(0, .label), (1, .label)] [.label, .label] := by decide
  have hfit' : Fit (Instruction.inspected ⟨.try_, [.labelTarget catchIp, .labelTarget endIp]⟩) _ :=
    hfit
  exact hfit'.wellShaped nofun (.cons rfl (.cons rfl .nil))

/-- `CATCH` does not look at its operand. -/
theorem wellShaped_catch (ops : List Operand) : Instruction.WellShaped ⟨.catch_, ops⟩ where
  finds := nofun
  inspects _ _ := iff_of_false (fun ⟨_, h⟩ => nomatch h) fun h => h rfl

theorem wellShaped_endTry : (Instruction.noArgs .endTry).WellShaped where
  finds := nofun
  inspects := nofun

namespace FuncCtx

variable {ctx : FuncCtx}

/-- The arm of an emitted opcode inspects what the mnemonic lays out. -/
theorem fit_of_emitInstr {instr : Instr} {code : Instruction}
    (h : ctx.emitInstr instr = .ok code) : Fit code.inspected instr.shapes := by
  cases ctx.instrEmits_of_emitInstr h with
  | tmpBlock hm =>
    rw [Instr.shapes, if_pos (.inl hm)]
    decide
  | endTmp hm =>
    rw [Instr.shapes, if_pos (.inr hm)]
    decide
  | ret hm hnil =>
    rw [Instr.shapes_ret hm, if_pos hnil]
    decide
  | retVal hm hcons _ =>
    rw [Instr.shapes_ret hm, if_neg (by rw [hcons]; rintro ⟨⟩)]
    show Fit [(0, .value)] [.val]
    decide
  | table htmp hend hret hlookup _ =>
    obtain ⟨hfit, hne⟩ := fit_of_mem_instrTable (mem_of_lookup hlookup)
    rw [Instr.shapes_table htmp hend hret hlookup, Instruction.inspected, if_neg fun h => hne h.1]
    exact hfit

/-- An emitted instruction has what its arm inspects. -/
theorem wellShaped_of_emitInstr {instr : Instr} {code : Instruction}
    (h : ctx.emitInstr instr = .ok code) : code.WellShaped := by
  obtain ⟨hlen, hall⟩ := ctx.emitInstr_eq h
  have hne : code.opcode ≠ .catch_ := by
    intro hcatch
    have hguard := ctx.emitInstr_setsGuard h
    rw [hcatch] at hguard
    cases hguard
  refine (fit_of_emitInstr h).wellShaped hne (List.forall₂_iff_get.mpr ⟨hlen.symm, ?_⟩)
  intro i hi hi'
  obtain ⟨v, op, -, hop, hres⟩ := hall (List.getElem?_eq_getElem hi)
  cases (List.getElem?_eq_getElem hi').symm.trans hop
  exact ctx.gives_of_resolve hres

mutual

/-- Every instruction of a statement has what its arm inspects. -/
theorem wellShaped_of_emitStatement : ∀ (stmt : Statement) {code : List Instruction},
    ctx.emitStatement stmt = .ok code → ∀ instr ∈ code, instr.WellShaped
  | .local_ decl, code, h => by
    cases h
    rintro instr (_ | ⟨_, ⟨⟩⟩)
    exact wellShaped_reserve _ _ _
  | .label _ _, code, h => by
    cases h
    nofun
  | .instr i, code, h => by
    obtain ⟨c, hc, h⟩ := bind_eq_ok h
    cases h
    rintro instr (_ | ⟨_, ⟨⟩⟩)
    exact wellShaped_of_emitInstr hc
  | .tryBlock _ _ body catchBody _, code, h => by
    obtain ⟨bodyCode, hbody, h⟩ := bind_eq_ok h
    obtain ⟨catchCode, hcatch, h⟩ := bind_eq_ok h
    cases h
    intro instr hmem
    simp only [List.mem_append, List.mem_cons, List.not_mem_nil, or_false] at hmem
    rcases hmem with ((rfl | hmem) | rfl | hmem) | rfl
    · exact wellShaped_try _ _
    · exact wellShaped_of_emitStatements body hbody instr hmem
    · exact wellShaped_catch _
    · exact wellShaped_of_emitStatements catchBody hcatch instr hmem
    · exact wellShaped_endTry

/-- The same for statements. -/
theorem wellShaped_of_emitStatements : ∀ (stmts : List Statement) {code : List Instruction},
    ctx.emitStatements stmts = .ok code → ∀ instr ∈ code, instr.WellShaped
  | [], code, h => by
    cases h
    nofun
  | stmt :: stmts, code, h => by
    obtain ⟨c₁, h₁, h⟩ := bind_eq_ok h
    obtain ⟨c₂, h₂, h⟩ := bind_eq_ok h
    cases h
    intro instr hmem
    rcases List.mem_append.mp hmem with hmem | hmem
    · exact wellShaped_of_emitStatement stmt h₁ instr hmem
    · exact wellShaped_of_emitStatements stmts h₂ instr hmem

end

end FuncCtx

/-! ## Accepted sources -/

section Accepted

variable {ω : Type} {u : Unicode} {source : String} {p : Program}

/-- Every instruction of a compiled function has what its arm inspects. -/
theorem compileSource_wellShaped (hp : compileSource u source = .ok p) {f : FunctionDef}
    (hf : f ∈ p.functions) {instr : Instruction} (hinstr : instr ∈ f.instructions) :
    instr.WellShaped := by
  obtain ⟨i, hi⟩ := List.mem_iff_getElem?.mp hf
  obtain ⟨ast, -, hemit⟩ := bind_eq_ok hp
  obtain ⟨func, -, hcomp⟩ := emit_function hemit hi
  obtain ⟨params, -, h⟩ := bind_eq_ok hcomp
  obtain ⟨code, hcode, h⟩ := bind_eq_ok h
  cases h
  exact FuncCtx.wellShaped_of_emitStatements func.body hcode instr hinstr

/-- **The emitter and the executor agree on operand shapes.**  An instruction of an accepted
source is executed by an arm that, whatever it finds, looks at the operands of the table in
order; the instruction has each of them, of the kind that is looked for.  So in no state does it
stop at an operand that is missing or of the wrong kind; and all of its operands are in the
table, unless it is a `CATCH`.  The initialiser of a global has the key, the type and the value
that the start of a run looks for. -/
theorem operand_shapes_agree (host : Host ω) (hp : compileSource u source = .ok p) :
    (∀ f ∈ p.functions, ∀ instr ∈ f.instructions, ∃ arm : Arm ω,
      (∀ ops, executeInstruction host p ⟨instr.opcode, ops⟩ = arm.exec ops) ∧
      arm.Follows instr.operands.isEmpty instr.inspected ∧
      (∀ n kind, (n, kind) ∈ instr.inspected →
        ∃ op, instr.operands[n]? = some op ∧ kind.takes op = true) ∧
      (∀ e n e', arm.run instr.operands e ≠ .error (.operand n) e') ∧
      ∀ n < instr.operands.length, (∃ kind, (n, kind) ∈ instr.inspected) ↔
        instr.opcode ≠ .catch_) ∧
    ∀ instr ∈ p.globalInits, ∃ idx t init,
      instr = ⟨.reserve, [.key idx, .type t, init]⟩ ∧ Kind.value.takes init = true := by
  refine ⟨fun f hf instr hinstr => ?_, fun instr hinstr => ?_⟩
  · obtain ⟨hfinds, hinspects⟩ := compileSource_wellShaped hp hf hinstr
    obtain ⟨arm, harm, hfollows⟩ := executeInstruction_inspects host p instr
    exact ⟨arm, harm, hfollows, hfinds, fun e n e' => hfollows.run_ne hfinds, hinspects⟩
  · obtain ⟨ast, -, hemit⟩ := bind_eq_ok hp
    obtain ⟨inits, hinits, hemit⟩ := bind_eq_ok hemit
    obtain ⟨funcs, -, hemit⟩ := bind_eq_ok hemit
    cases hemit
    obtain ⟨j, hj⟩ := List.mem_iff_getElem?.mp hinstr
    obtain ⟨gr, -, hgr⟩ := getElem?_of_mapM hinits hj
    obtain ⟨init, hinit, hgr⟩ := bind_eq_ok hgr
    cases hgr
    have hctx : FuncCtx.valOp ⟨ast.defineMap, [], [], []⟩ gr.init = .ok init := hinit
    obtain ⟨s, rfl⟩ | ⟨imm, rfl⟩ := FuncCtx.valOp_cases _ hctx <;> exact ⟨_, _, _, rfl, rfl⟩

end Accepted

section Example

/-- `Main` reads a field of its arguments in a `TRY`. -/
def guardedGetSource : String :=
  "FUNC Main\nTRY\nGET_FIELD $args, 1, $ret\nCATCH\nENDTRY\nENDF"

private def guardedGetTokens : List Token :=
  [⟨.ident "FUNC", 1⟩, ⟨.ident "Main", 1⟩, ⟨.ident "TRY", 2⟩, ⟨.ident "GET_FIELD", 3⟩,
    ⟨.ident "$args", 3⟩, ⟨.comma, 3⟩, ⟨.integer 1, 3⟩, ⟨.comma, 3⟩, ⟨.ident "$ret", 3⟩,
    ⟨.ident "CATCH", 4⟩, ⟨.ident "ENDTRY", 5⟩, ⟨.ident "ENDF", 6⟩, ⟨.eof, 6⟩]

/-- The `GET_FIELD` of `guardedGetSource`. -/
def getFieldCode : Instruction :=
  ⟨.getField, [.slot (.builtIn .args), .key 1, .slot (.builtIn .ret)]⟩

/-- The program of `guardedGetSource`. -/
def guardedGetProgram : Program :=
  ⟨1, [], [⟨"Main", [], [⟨.try_, [.labelTarget 2, .labelTarget 3]⟩, getFieldCode,
    ⟨.catch_, [.labelTarget 3]⟩, ⟨.endTry, []⟩]⟩]⟩

private theorem guardedGet_tokens : tokenize .ascii guardedGetSource = .ok guardedGetTokens := (rfl)

private theorem guardedGet_frontend : frontend .ascii guardedGetSource =
    .ok ⟨[], [], [], [⟨"Main", [], [.tryBlock "__catch_2" "__endtry_2"
      [.instr ⟨"GET_FIELD", [.ident "$args", .integer 1, .ident "$ret"], 3⟩] [] 2], 1⟩]⟩ :=
  frontend_eq guardedGet_tokens rfl rfl

theorem guardedGet_compiles : compileSource .ascii guardedGetSource = .ok guardedGetProgram :=
  (compileSource_eq guardedGet_frontend).trans rfl

/-- The `GET_FIELD` looks at its key, at its struct and at its target, and stops at none of them;
the `CATCH` does not look at its operand. -/
theorem operand_shapes_agree_guardedGet :
    (∃ arm : Arm Unit,
      (∀ ops, executeInstruction .bare guardedGetProgram ⟨.getField, ops⟩ = arm.exec ops) ∧
      arm.Follows false [(1, .key), (0, .value), (2, .write)] ∧
      ∀ e n e', arm.run getFieldCode.operands e ≠ .error (.operand n) e') ∧
    ∃ arm : Arm Unit,
      (∀ ops, executeInstruction .bare guardedGetProgram ⟨.catch_, ops⟩ = arm.exec ops) ∧
      arm.Follows false [] := by
  have h := (operand_shapes_agree Host.bare guardedGet_compiles).1 _ (.head _)
  obtain ⟨arm, harm, hfollows, -, hrun, -⟩ := h getFieldCode (.tail _ (.head _))
  obtain ⟨arm', harm', hfollows', -⟩ := h ⟨.catch_, _⟩ (.tail _ (.tail _ (.head _)))
  exact ⟨⟨arm, harm, hfollows, hrun⟩, arm', harm', hfollows'⟩

end Example

end Fasm
