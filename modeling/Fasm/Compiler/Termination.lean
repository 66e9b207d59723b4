import Fasm.Compiler.Defines
import Fasm.Compiler.Frontend
import Fasm.Compiler.Passes

/-!
# Where compiling ends

The lexer, the parser and the validator always end.  The emitter resolves the operands of a
program one after the other, and only a chain of `DEFINE`s that comes back to one of its names
keeps it from ending.  Whether it comes to such a chain depends on what it rejects before.
-/

namespace Fasm

open Relation (ReflTransGen)

/-- What the emitter resolves in one step: an operand expression, or one that is not there. -/
inductive Demand where
  | operand (ctx : FuncCtx) (shape : Shape) (v : AstValue)
  | missing

/-- The value ends a chain of `DEFINE`s and is a number. -/
def AstValue.IsNumber : AstValue → Prop
  | .integer _ => True
  | .hexInt _ => True
  | _ => False

namespace Demand

/-- The chain of `DEFINE`s from the operand comes back to one of its names. -/
def Loops : Demand → Prop
  | operand ctx .val v => Fasm.Loops (valueStep ctx.defines ctx.locals) v
  | operand ctx .key v => Fasm.Loops (defineStep ctx.defines) v
  | operand ctx .syscall v => Fasm.Loops (defineStep ctx.defines) v
  | _ => False

/-- The operand is not one that the instruction can have. -/
def Rejected : Demand → Prop
  | operand ctx .slot v => astValToSlot ctx v = none
  | operand _ .val _ => False
  | operand _ .key _ => False
  | operand _ .type v =>
    ∀ name, v = .ident name → (typeNames ++ [("NULL", FasmType.null)]).lookup name = none
  | operand ctx .label v => ∀ name, v = .ident name → ctx.labelPositions.lookup name = none
  | operand ctx .func v => ∀ name, v = .ident name → ctx.funcIndexMap.lookup name = none
  | operand ctx .syscall v => ∃ w, ReflTransGen (Leads (defineStep ctx.defines)) v w ∧
      defineStep ctx.defines w = none ∧ ¬ w.IsNumber
  | operand _ .filterOp v => ∀ name, v = .ident name → filterOps.lookup name = none
  | missing => True

/-- Neither of the two. -/
def Resolves (d : Demand) : Prop := ¬ d.Loops ∧ ¬ d.Rejected

theorem not_rejected_of_loops {d : Demand} (h : d.Loops) : ¬ d.Rejected := by
  rcases d with ⟨ctx, shape, v⟩ | -
  · cases shape with
    | val => exact id
    | key => exact id
    | syscall =>
      rintro ⟨w, hw, hend, -⟩
      obtain ⟨z, hz, -⟩ := (Fasm.Loops.of_leads h hw).exists_next
      cases hend.symm.trans hz
    | _ => exact h.elim
  · exact h.elim

end Demand

/-! ## Demands in a row -/

/-- The first of the demands that does not resolve is one with `P`. -/
def ComesTo (P : Demand → Prop) (demands : List Demand) : Prop :=
  ∃ pre d post, demands = pre ++ d :: post ∧ P d ∧ ∀ d' ∈ pre, d'.Resolves

section Row

variable {P : Demand → Prop} {l l' : List Demand} {d : Demand}

theorem ComesTo.append_right (h : ComesTo P l) (l' : List Demand) : ComesTo P (l ++ l') := by
  obtain ⟨pre, d, post, rfl, hd, hpre⟩ := h
  exact ⟨pre, d, post ++ l', by rw [List.append_assoc, List.cons_append], hd, hpre⟩

theorem ComesTo.append_left (h : ComesTo P l') (hl : ∀ d ∈ l, d.Resolves) :
    ComesTo P (l ++ l') := by
  obtain ⟨pre, d, post, rfl, hd, hpre⟩ := h
  refine ⟨l ++ pre, d, post, (List.append_assoc ..).symm, hd, ?_⟩
  exact List.forall_mem_append.mpr ⟨hl, hpre⟩

theorem ComesTo.one (h : P d) : ComesTo P [d] := ⟨[], d, [], rfl, h, nofun⟩

theorem not_comesTo_of_resolves (h : ∀ d ∈ l, d.Resolves) : ¬ ComesTo Demand.Loops l := by
  rintro ⟨pre, d, post, rfl, hd, -⟩
  exact (h d (by simp)).1 hd

/-- The first demand that does not resolve is of one kind only. -/
theorem ComesTo.not_loops (h : ComesTo Demand.Rejected l) : ¬ ComesTo Demand.Loops l := by
  obtain ⟨pre, d, post, rfl, hd, hpre⟩ := h
  rintro ⟨pre', d', post', heq, hd', hpre'⟩
  rcases List.append_eq_append_iff.mp heq with ⟨mid, rfl, hmid⟩ | ⟨mid, rfl, hmid⟩
  · cases mid with
    | nil =>
      cases hmid
      exact Demand.not_rejected_of_loops hd' hd
    | cons m mid =>
      cases hmid
      exact (hpre' d (by simp)).2 hd
  · cases mid with
    | nil =>
      cases hmid
      exact Demand.not_rejected_of_loops hd' hd
    | cons m mid =>
      cases hmid
      exact (hpre d' (by simp)).1 hd'

end Row

/-- The computation meets the demands in their order: it succeeds if they all resolve, and fails
as the first one does that does not. -/
def Answers {α : Type} : Except CompileFail α → List Demand → Prop
  | .ok _, demands => ∀ d ∈ demands, d.Resolves
  | .error (.error _), demands => ComesTo Demand.Rejected demands
  | .error .diverges, demands => ComesTo Demand.Loops demands
  | .error .panics, _ => False

namespace Answers

variable {α β : Type} {x : Except CompileFail α} {f : α → Except CompileFail β}
  {demands demands' : List Demand}

theorem pure (a : α) : Answers (.ok a) [] := nofun

theorem bind (hx : Answers x demands) (hf : ∀ a, x = .ok a → Answers (f a) demands') :
    Answers (x >>= f) (demands ++ demands') := by
  cases x with
  | error e =>
    cases e with
    | error msg => exact ComesTo.append_right hx _
    | diverges => exact ComesTo.append_right hx _
    | panics => exact hx
  | ok a =>
    have hfa := hf a rfl
    show Answers (f a) _
    cases hr : f a with
    | ok b =>
      rw [hr] at hfa
      exact List.forall_mem_append.mpr ⟨hx, hfa⟩
    | error e =>
      rw [hr] at hfa
      cases e with
      | error msg => exact ComesTo.append_left hfa hx
      | diverges => exact ComesTo.append_left hfa hx
      | panics => exact hfa

/-- The last step only wraps the result. -/
theorem map (hx : Answers x demands) (g : α → β) : Answers (x >>= fun a => .ok (g a)) demands := by
  have h := hx.bind (f := fun a => .ok (g a)) fun a _ => .pure _
  rwa [List.append_nil] at h

theorem mapM {f : α → Except CompileFail β} {g : α → List Demand} (h : ∀ a, Answers (f a) (g a)) :
    ∀ l : List α, Answers (l.mapM f) (l.flatMap g)
  | [] => .pure _
  | a :: l => by
    rw [List.mapM_cons]
    exact (h a).bind fun b _ => (mapM h l).map _

theorem of_lineError {d : Demand} (h : d.Rejected) (ln : Nat) (msg : String) :
    Answers (lineError ln msg : Except CompileFail α) [d] := ComesTo.one h

theorem of_ok {d : Demand} {a : α} (h : d.Resolves) : Answers (.ok a) [d] :=
  List.forall_mem_singleton.mpr h

/-- An operand that is the name of an entry of a table. -/
theorem of_name {β : Type} {d : Demand} {v : AstValue} {table : List (String × β)}
    (hd : ¬ d.Loops)
    (hrej : d.Rejected ↔ ∀ name, v = .ident name → table.lookup name = none)
    (hsome : ∀ name b, v = .ident name → table.lookup name = some b → ∃ a, x = .ok a)
    (hnone : d.Rejected → ∃ msg, x = .error (.error msg)) : Answers x [d] := by
  by_cases hr : d.Rejected
  · obtain ⟨msg, rfl⟩ := hnone hr
    exact ComesTo.one hr
  · have hentry := hr
    rw [hrej] at hentry
    push Not at hentry
    obtain ⟨name, hv, hne⟩ := hentry
    obtain ⟨b, hb⟩ := Option.ne_none_iff_exists'.mp hne
    obtain ⟨a, rfl⟩ := hsome name b hv hb
    exact of_ok ⟨hd, hr⟩

/-- A computation that follows the demands ends unless they come to a loop. -/
theorem ends_iff (h : Answers x demands) :
    ((∃ a, x = .ok a) ∨ ∃ msg, x = .error (.error msg)) ↔ ¬ ComesTo Demand.Loops demands := by
  cases x with
  | ok a => exact iff_of_true (.inl ⟨a, rfl⟩) (not_comesTo_of_resolves h)
  | error e =>
    cases e with
    | error msg => exact iff_of_true (.inr ⟨msg, rfl⟩) (ComesTo.not_loops h)
    | diverges =>
      refine iff_of_false ?_ (not_not.mpr h)
      rintro (⟨a, ha⟩ | ⟨msg, hmsg⟩)
      · cases ha
      · cases hmsg
    | panics => exact h.elim

end Answers

/-! ## The demands of a program -/

/-- The operands that an instruction needs from position `n` on. -/
def Instr.demandsFrom (ctx : FuncCtx) (instr : Instr) : Nat → List Shape → List Demand
  | _, [] => []
  | n, shape :: shapes =>
    ((instr.operands[n]?).elim .missing (.operand ctx shape)) ::
      instr.demandsFrom ctx (n + 1) shapes

/-- The operands that an instruction needs. -/
def Instr.demands (ctx : FuncCtx) (instr : Instr) : List Demand :=
  if instr.mnemonic = "TMP_BLOCK" ∨ instr.mnemonic = "END_TMP" then []
  else if instr.mnemonic = "RET" then (instr.operands.take 1).map (.operand ctx .val)
  else
    match instrTable.lookup instr.mnemonic with
    | some (_, shapes) => instr.demandsFrom ctx 0 shapes
    | none => [.missing]

mutual

def Statement.demands (ctx : FuncCtx) : Statement → List Demand
  | .local_ _ => []
  | .label _ _ => []
  | .instr instr => instr.demands ctx
  | .tryBlock _ _ body catchBody _ => demandsOfAll ctx body ++ demandsOfAll ctx catchBody

/-- The demands of statements, in the order of the code. -/
def demandsOfAll (ctx : FuncCtx) : List Statement → List Demand
  | [] => []
  | stmt :: stmts => stmt.demands ctx ++ demandsOfAll ctx stmts

end

/-- The demands of a function: the keys of its parameters, then its body. -/
def Function.demands (ast : ProgramAst) (f : Function) : List Demand :=
  f.params.flatMap (fun param => [.operand (f.emitCtx ast) .key param.key]) ++
    demandsOfAll (f.emitCtx ast) f.body

/-- The demands of a program: the initial values of its globals, then its functions. -/
def ProgramAst.demands (ast : ProgramAst) : List Demand :=
  ast.globalReserves.flatMap (fun gr => [.operand ⟨ast.defineMap, [], [], []⟩ .val gr.init]) ++
    ast.functions.flatMap fun f => f.demands ast

namespace Answers

section Operands

variable (ctx : FuncCtx)

theorem valOp (v : AstValue) : Answers (ctx.valOp v) [.operand ctx .val v] := by
  rw [FuncCtx.valOp, astValueToOperand_eq]
  cases hv : follow (valueStep ctx.defines ctx.locals) (ctx.defines.length + 1) v with
  | none =>
    rw [← length_definePoints] at hv
    exact ComesTo.one ((follow_eq_none_iff valueStep_mem).mp hv)
  | some w =>
    refine of_ok ⟨fun hloop => ?_, id⟩
    cases (Loops.follow_eq_none hloop _).symm.trans hv

theorem resolveU32 {v : AstValue} : Answers (resolveU32 ctx.defines (ctx.defines.length + 1) v)
    [.operand ctx .key v] := by
  rw [resolveU32_eq]
  cases hv : follow (defineStep ctx.defines) (ctx.defines.length + 1) v with
  | none =>
    rw [← length_definePoints] at hv
    exact ComesTo.one ((follow_eq_none_iff defineStep_mem).mp hv)
  | some w =>
    refine of_ok ⟨fun hloop => ?_, id⟩
    cases (Loops.follow_eq_none hloop _).symm.trans hv

theorem resolveSyscallId (ln : Nat) (v : AstValue) :
    Answers (resolveSyscallId ctx.defines ln (ctx.defines.length + 1) v)
      [.operand ctx .syscall v] := by
  rw [resolveSyscallId_eq]
  cases hv : follow (defineStep ctx.defines) (ctx.defines.length + 1) v with
  | none =>
    rw [← length_definePoints] at hv
    exact ComesTo.one ((follow_eq_none_iff defineStep_mem).mp hv)
  | some w =>
    have hw := leads_of_follow hv
    have hend := next_of_follow hv
    have hrej (hnum : ¬ w.IsNumber) : Demand.Rejected (.operand ctx .syscall v) :=
      ⟨w, hw, hend, hnum⟩
    have hres (hnum : w.IsNumber) : Demand.Resolves (.operand ctx .syscall v) := by
      refine ⟨fun hloop => ?_, ?_⟩
      · cases (Loops.follow_eq_none hloop _).symm.trans hv
      · rintro ⟨w', hw', hend', hnum'⟩
        exact hnum' (end_unique hw hw' hend hend' ▸ hnum)
    cases w with
    | integer n => exact of_ok (hres trivial)
    | hexInt n => exact of_ok (hres trivial)
    | ident name => exact of_lineError (hrej id) _ _
    | _ => exact of_lineError (hrej id) _ _

theorem resolve (ln n : Nat) (v : AstValue) (shape : Shape) :
    Answers (ctx.resolve ln n v shape) [.operand ctx shape v] := by
  cases shape with
  | slot =>
    rw [FuncCtx.resolve, FuncCtx.slotOp]
    cases hv : astValToSlot ctx v with
    | some s =>
      refine of_ok ⟨id, ?_⟩
      intro (hnone : astValToSlot ctx v = none)
      cases hv.symm.trans hnone
    | none =>
      refine of_lineError ?_ _ _
      exact hv
  | val => exact valOp ctx v
  | key => exact (resolveU32 ctx).map Operand.key
  | type =>
    refine Answers.map ?_ Operand.type
    refine of_name id .rfl ?_ fun hno => ?_
    · rintro name t rfl ht
      exact ⟨_, by rw [astValType, ht]⟩
    · cases v with
      | ident name => exact ⟨_, by rw [astValType, hno name rfl]⟩
      | _ => exact ⟨_, rfl⟩
  | label =>
    refine of_name id .rfl ?_ fun hno => ?_
    · rintro name pos rfl hpos
      exact ⟨_, by rw [FuncCtx.resolve, labelOp, hpos]⟩
    · cases v with
      | ident name => exact ⟨_, by rw [FuncCtx.resolve, labelOp, hno name rfl, lineError]⟩
      | _ => exact ⟨_, rfl⟩
  | func =>
    refine of_name id .rfl ?_ fun hno => ?_
    · rintro name idx rfl hidx
      refine ⟨.funcRef idx, ?_⟩
      simp only [FuncCtx.resolve, FuncCtx.funcOp, astIdent, Bind.bind, Except.bind, hidx]
      rfl
    · cases v with
      | ident name =>
        have hfail : ctx.funcOp ln (.ident name) =
            lineError ln ("undefined function '" ++ name ++ "'") := by
          simp only [FuncCtx.funcOp, astIdent, Bind.bind, Except.bind, hno name rfl]
        exact ⟨_, hfail⟩
      | _ => exact ⟨_, rfl⟩
  | syscall => exact (resolveSyscallId ctx ln v).map Operand.syscallId
  | filterOp =>
    refine of_name id .rfl ?_ fun hno => ?_
    · rintro name k rfl hk
      exact ⟨_, by rw [FuncCtx.resolve, FuncCtx.filterOp, AstValue.asIdent, Option.bind_some, hk]⟩
    · cases v with
      | ident name =>
        have hlookup : filterOps.lookup name = none := hno name rfl
        exact ⟨_, by rw [FuncCtx.resolve, FuncCtx.filterOp, AstValue.asIdent, Option.bind_some,
          hlookup, lineError]⟩
      | _ => exact ⟨_, rfl⟩

/-! ## The emitter -/

theorem resolveAll (instr : Instr) : ∀ (shapes : List Shape) (n : Nat),
    Answers (ctx.resolveAll instr n shapes) (instr.demandsFrom ctx n shapes)
  | [], _ => .pure _
  | shape :: shapes, n => by
    rw [FuncCtx.resolveAll, Instr.demandsFrom]
    cases hv : instr.operands[n]? with
    | none => exact ComesTo.append_right (ComesTo.one (d := .missing) trivial) _
    | some v =>
      exact (resolve ctx instr.line n v shape).bind fun op _ =>
        (resolveAll instr shapes (n + 1)).map _

theorem emitInstr (instr : Instr) : Answers (ctx.emitInstr instr) (instr.demands ctx) := by
  rw [FuncCtx.emitInstr, Instr.demands]
  by_cases htmp : instr.mnemonic = "TMP_BLOCK"
  · rw [if_pos htmp, if_pos (.inl htmp)]
    exact .pure _
  rw [if_neg htmp]
  by_cases hend : instr.mnemonic = "END_TMP"
  · rw [if_pos hend, if_pos (.inr hend)]
    exact .pure _
  rw [if_neg hend, if_neg (not_or.mpr ⟨htmp, hend⟩)]
  by_cases hret : instr.mnemonic = "RET"
  · rw [if_pos hret, if_pos hret]
    cases instr.operands with
    | nil => exact .pure _
    | cons v vs => exact (valOp ctx v).map _
  · rw [if_neg hret, if_neg hret]
    cases instrTable.lookup instr.mnemonic with
    | none => exact of_lineError (d := .missing) trivial _ _
    | some entry => exact (resolveAll ctx instr entry.2 0).map _

mutual

theorem emitStatement : ∀ stmt : Statement, Answers (ctx.emitStatement stmt) (stmt.demands ctx)
  | .local_ _ => .pure _
  | .label _ _ => .pure _
  | .instr instr => (emitInstr ctx instr).map _
  | .tryBlock _ _ body catchBody _ =>
    (emitStatements body).bind fun _ _ => (emitStatements catchBody).map _

theorem emitStatements : ∀ stmts : List Statement,
    Answers (ctx.emitStatements stmts) (demandsOfAll ctx stmts)
  | [] => .pure _
  | stmt :: stmts => (emitStatement stmt).bind fun _ _ => (emitStatements stmts).map _

end

end Operands

theorem emitFunction (ast : ProgramAst) (f : Function) :
    Answers (emitFunction ast.defineMap ast.funcIndexMap f) (f.demands ast) := by
  refine (mapM (fun param => ?_) f.params).bind fun params _ => ?_
  · exact (resolveU32 (f.emitCtx ast)).map _
  · exact (emitStatements (f.emitCtx ast) f.body).map _

/-- The emitter answers the demands of the program. -/
theorem emit (ast : ProgramAst) : Answers (emit ast) ast.demands := by
  refine (mapM (fun gr => ?_) ast.globalReserves).bind fun inits _ => ?_
  · exact (valOp ⟨ast.defineMap, [], [], []⟩ gr.init).map _
  · exact (mapM (emitFunction ast) ast.functions).map _

end Answers

/-! ## Compiling -/

/-- `compile_source` ends, with `Ok` or `Err`, unless the emitter comes to a loop. -/
theorem compileSource_ends_iff (u : Unicode) (source : String) :
    ((∃ p, compileSource u source = .ok p) ∨ ∃ msg, compileSource u source = .error (.error msg)) ↔
      ∀ ast, frontend u source = .ok ast → ¬ ComesTo Demand.Loops ast.demands := by
  cases hast : frontend u source with
  | ok ast =>
    rw [compileSource_eq hast, (Answers.emit ast).ends_iff]
    constructor
    · rintro h ast' ⟨⟩
      exact h
    · exact fun h => h ast rfl
  | error e =>
    obtain ⟨msg, rfl⟩ := frontend_raises u source e hast
    refine iff_of_true (.inr ⟨msg, ?_⟩) nofun
    rw [compileSource, hast]
    rfl

/-- A `DEFINE` of a name by itself. -/
def selfDefineSource : String := "DEFINE A, A\nFUNC Main\nMOV A, 0\nENDF"

def selfDefineTokens : List Token :=
  [⟨.ident "DEFINE", 1⟩, ⟨.ident "A", 1⟩, ⟨.comma, 1⟩, ⟨.ident "A", 1⟩, ⟨.ident "FUNC", 2⟩,
    ⟨.ident "Main", 2⟩, ⟨.ident "MOV", 3⟩, ⟨.ident "A", 3⟩, ⟨.comma, 3⟩, ⟨.integer 0, 3⟩,
    ⟨.ident "ENDF", 4⟩, ⟨.eof, 4⟩]

private theorem selfDefine_tokens : tokenize .ascii selfDefineSource = .ok selfDefineTokens := (rfl)

theorem selfDefine_frontend : frontend .ascii selfDefineSource =
    .ok ⟨[⟨"A", .ident "A", 1⟩], [], [],
      [⟨"Main", [], [.instr ⟨"MOV", [.ident "A", .integer 0], 3⟩], 2⟩]⟩ :=
  frontend_eq selfDefine_tokens rfl rfl

/-- The emitter replaces the name by itself for ever. -/
theorem selfDefine_diverges :
    ¬ ((∃ p, compileSource .ascii selfDefineSource = .ok p) ∨
      ∃ msg, compileSource .ascii selfDefineSource = .error (.error msg)) := by
  have hdiv : compileSource .ascii selfDefineSource = .error .diverges :=
    (compileSource_eq selfDefine_frontend).trans rfl
  rw [hdiv]
  rintro (⟨p, hp⟩ | ⟨msg, hmsg⟩)
  · cases hp
  · cases hmsg

end Fasm
