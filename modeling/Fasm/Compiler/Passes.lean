import Fasm.Compiler.Uses

/-!
# The two passes of the emitter

`collect_locals_and_labels` counts instructions and `emit_statements` pushes them.  They go
over the statements in one order, so they are followed together: what the first has
collected and what the second has pushed when they come to a statement.
-/

namespace Fasm

/-- How far the passes have come. -/
structure Progress where
  first : FirstPass
  out : List Instruction

/-- Before the first statement. -/
def Progress.start : Progress := ⟨⟨[], [], 0⟩, []⟩

/-- The `ip` of the first pass is the number of instructions of the second, as a `u32`. -/
def Progress.Agree (s : Progress) : Prop := s.first.ip = .ofNat 32 s.out.length

namespace FuncCtx

variable (ctx : FuncCtx)

/-- The `TRY` of a block. -/
def tryInstr (catchLabel endLabel : String) : Instruction :=
  ⟨.try_, [.labelTarget (ctx.labelIp catchLabel), .labelTarget (ctx.labelIp endLabel)]⟩

/-- The `CATCH` of a block. -/
def catchInstr (endLabel : String) : Instruction := ⟨.catch_, [.labelTarget (ctx.labelIp endLabel)]⟩

end FuncCtx

/-- In progress `s` before the statements, the passes come to `stmt`, with `next` after it in its
list, in progress `s'`. -/
inductive Visits (ctx : FuncCtx) :
    List Statement → Progress → (stmt : Statement) → (next : List Statement) → Progress → Prop
  | here {stmt stmts s} : Visits ctx (stmt :: stmts) s stmt stmts s
  | later {stmt stmts s code stmt' next s'} (h : ctx.emitStatement stmt = .ok code)
      (hv : Visits ctx stmts ⟨collectStatement stmt s.first, s.out ++ code⟩ stmt' next s') :
    Visits ctx (stmt :: stmts) s stmt' next s'
  | body {catchLabel endLabel body catchBody line stmts s stmt' next s'}
      (hv : Visits ctx body ⟨s.first.next, s.out ++ [ctx.tryInstr catchLabel endLabel]⟩
        stmt' next s') :
    Visits ctx (.tryBlock catchLabel endLabel body catchBody line :: stmts) s stmt' next s'
  | catchBody {catchLabel endLabel body catchBody line stmts s code stmt' next s'}
      (h : ctx.emitStatements body = .ok code)
      (hv : Visits ctx catchBody
        ⟨((collectStatements body s.first.next).insertLabel catchLabel).next,
          s.out ++ ctx.tryInstr catchLabel endLabel :: code ++ [ctx.catchInstr endLabel]⟩
        stmt' next s') :
    Visits ctx (.tryBlock catchLabel endLabel body catchBody line :: stmts) s stmt' next s'

mutual

/-- A statement and the statements in it, in the order in which the passes come to them. -/
def Statement.parts : Statement → List Statement
  | .local_ decl => [.local_ decl]
  | .label name line => [.label name line]
  | .instr instr => [.instr instr]
  | .tryBlock catchLabel endLabel body catchBody line =>
    .tryBlock catchLabel endLabel body catchBody line :: (partsOfAll body ++ partsOfAll catchBody)

/-- All the statements of a body. -/
def partsOfAll : List Statement → List Statement
  | [] => []
  | stmt :: stmts => stmt.parts ++ partsOfAll stmts

end

mutual

/-- The passes come to every statement in the first one. -/
theorem visits_of_mem_parts (ctx : FuncCtx) : ∀ (stmt : Statement) (stmts : List Statement)
    (s : Progress) {code : List Instruction}, ctx.emitStatement stmt = .ok code →
    ∀ stmt' ∈ stmt.parts, ∃ next s', Visits ctx (stmt :: stmts) s stmt' next s'
  | .local_ _, _, _, _, _, _, hmem => by
    cases List.mem_singleton.mp hmem
    exact ⟨_, _, .here⟩
  | .label _ _, _, _, _, _, _, hmem => by
    cases List.mem_singleton.mp hmem
    exact ⟨_, _, .here⟩
  | .instr _, _, _, _, _, _, hmem => by
    cases List.mem_singleton.mp hmem
    exact ⟨_, _, .here⟩
  | .tryBlock _ _ body catchBody _, _, _, _, hcode, _, hmem => by
    obtain ⟨bodyCode, hbody, hcode⟩ := bind_eq_ok hcode
    obtain ⟨catchCode, hcatch, -⟩ := bind_eq_ok hcode
    simp only [Statement.parts, List.mem_cons, List.mem_append] at hmem
    rcases hmem with rfl | hmem | hmem
    · exact ⟨_, _, .here⟩
    · obtain ⟨next, s', hv⟩ := visits_of_mem_partsOfAll ctx body _ hbody _ hmem
      exact ⟨next, s', .body hv⟩
    · obtain ⟨next, s', hv⟩ := visits_of_mem_partsOfAll ctx catchBody _ hcatch _ hmem
      exact ⟨next, s', .catchBody hbody hv⟩

/-- The passes come to every statement of a body. -/
theorem visits_of_mem_partsOfAll (ctx : FuncCtx) : ∀ (stmts : List Statement) (s : Progress)
    {code : List Instruction}, ctx.emitStatements stmts = .ok code →
    ∀ stmt' ∈ partsOfAll stmts, ∃ next s', Visits ctx stmts s stmt' next s'
  | stmt :: stmts, s, _, hcode, stmt', hmem => by
    obtain ⟨c₁, h₁, hcode⟩ := bind_eq_ok hcode
    obtain ⟨c₂, h₂, -⟩ := bind_eq_ok hcode
    rcases List.mem_append.mp hmem with hmem | hmem
    · exact visits_of_mem_parts ctx stmt stmts s h₁ stmt' hmem
    · obtain ⟨next, s', hv⟩ := visits_of_mem_partsOfAll ctx stmts _ h₂ stmt' hmem
      exact ⟨next, s', .later h₁ hv⟩

end

namespace Visits

variable {ctx : FuncCtx} {stmts next : List Statement} {stmt : Statement} {s s' : Progress}

/-- The passes agree all the way. -/
theorem agree (h : Visits ctx stmts s stmt next s') (hs : s.Agree) : s'.Agree := by
  induction h with
  | here => exact hs
  | @later stmt _ _ code _ _ _ hemit _ ih =>
    refine ih ?_
    rw [Progress.Agree, (collectStatement_eq stmt hs).1, List.length_append,
      ctx.length_emitStatement stmt hemit]
  | body _ ih =>
    refine ih ?_
    rw [Progress.Agree, FirstPass.next_ip hs, List.length_append]
    rfl
  | @catchBody catchLabel endLabel body _ _ _ s code _ _ _ hemit _ ih =>
    refine ih ?_
    have hip := (collectStatements_eq body (FirstPass.next_ip hs)).1
    have hip' : (((collectStatements body s.first.next).insertLabel catchLabel).next).ip = _ :=
      FirstPass.next_ip hip
    rw [Progress.Agree, hip', ← ctx.length_emitStatements body hemit]
    simp only [List.length_append, List.length_cons, List.length_nil]
    exact congrArg _ (by omega)

/-- What is pushed after the passes have come to a statement: its code, the code of those after
it in its list, and the rest. -/
theorem emits (h : Visits ctx stmts s stmt next s') :
    ∀ {code : List Instruction}, ctx.emitStatements stmts = .ok code →
    ∃ c cs rest, ctx.emitStatement stmt = .ok c ∧ ctx.emitStatements next = .ok cs ∧
      s.out ++ code = s'.out ++ (c ++ cs ++ rest) := by
  induction h with
  | here =>
    intro code hcode
    obtain ⟨c, hc, hcode⟩ := bind_eq_ok hcode
    obtain ⟨cs, hcs, hcode⟩ := bind_eq_ok hcode
    cases hcode
    exact ⟨c, cs, [], hc, hcs, by rw [List.append_nil]⟩
  | later hemit _ ih =>
    intro code hcode
    obtain ⟨c₀, hc₀, hcode⟩ := bind_eq_ok hcode
    obtain ⟨cs₀, hcs₀, hcode⟩ := bind_eq_ok hcode
    cases hcode
    cases hemit.symm.trans hc₀
    obtain ⟨c, cs, rest, hc, hcs, heq⟩ := ih hcs₀
    exact ⟨c, cs, rest, hc, hcs, by rw [← heq, List.append_assoc]⟩
  | @body _ endLabel _ _ _ _ s _ _ _ _ ih =>
    intro code hcode
    obtain ⟨c₀, hc₀, hcode⟩ := bind_eq_ok hcode
    obtain ⟨cs₀, -, hcode⟩ := bind_eq_ok hcode
    obtain ⟨bodyCode, hbody, hc₀⟩ := bind_eq_ok hc₀
    obtain ⟨catchCode, -, hc₀⟩ := bind_eq_ok hc₀
    cases hcode
    cases hc₀
    obtain ⟨c, cs, rest, hc, hcs, heq⟩ := ih hbody
    let after := ctx.catchInstr endLabel :: catchCode ++ [.noArgs .endTry] ++ cs₀
    refine ⟨c, cs, rest ++ after, hc, hcs, ?_⟩
    rw [← List.append_assoc _ rest, ← List.append_assoc _ (_ ++ rest), ← heq]
    simp [FuncCtx.tryInstr, FuncCtx.catchInstr, after]
  | @catchBody _ _ _ _ _ _ s _ _ _ _ hemit _ ih =>
    intro code hcode
    obtain ⟨c₀, hc₀, hcode⟩ := bind_eq_ok hcode
    obtain ⟨cs₀, -, hcode⟩ := bind_eq_ok hcode
    obtain ⟨bodyCode, hbody, hc₀⟩ := bind_eq_ok hc₀
    obtain ⟨catchCode, hcatch, hc₀⟩ := bind_eq_ok hc₀
    cases hcode
    cases hc₀
    cases hemit.symm.trans hbody
    obtain ⟨c, cs, rest, hc, hcs, heq⟩ := ih hcatch
    refine ⟨c, cs, rest ++ .noArgs .endTry :: cs₀, hc, hcs, ?_⟩
    rw [← List.append_assoc _ rest, ← List.append_assoc _ (_ ++ rest), ← heq]
    simp [FuncCtx.tryInstr, FuncCtx.catchInstr]

/-- A `LABEL` is a label site, at the number of instructions before it. -/
theorem label_mem {name : String} {line : Nat} (h : Visits ctx stmts s (.label name line) next s') :
    (name, s'.out.length) ∈ labelSitesOfAll stmts s.out.length := by
  generalize hstmt : Statement.label name line = stmt at h
  induction h with
  | here =>
    subst hstmt
    exact .head _
  | @later stmt _ _ _ _ _ _ hemit _ ih =>
    refine List.mem_append_right _ ?_
    have hmem := ih hstmt
    rwa [List.length_append, ctx.length_emitStatement stmt hemit] at hmem
  | body _ ih =>
    have hmem := ih hstmt
    rw [List.length_append] at hmem
    exact List.mem_append_left _ (List.mem_append_left _ (List.mem_append_left _ hmem))
  | @catchBody catchLabel endLabel body _ _ _ s code _ _ _ hemit _ ih =>
    have hmem := ih hstmt
    have hlen : (s.out ++ ctx.tryInstr catchLabel endLabel :: code ++
        [ctx.catchInstr endLabel]).length = s.out.length + 1 + sizeOfAll body + 1 := by
      rw [← ctx.length_emitStatements body hemit]
      simp only [List.length_append, List.length_cons, List.length_nil]
      omega
    rw [hlen] at hmem
    exact List.mem_append_left _ (List.mem_append_left _ (List.mem_append_right _ (.tail _ hmem)))

end Visits

/-! ## Label operands -/

mutual

/-- The labels of a statement are in its code or right after it. -/
theorem Statement.labelSites_bounds : ∀ (stmt : Statement) {ip : Nat} {site : String × Nat},
    site ∈ stmt.labelSites ip → ip ≤ site.2 ∧ site.2 ≤ ip + stmt.size
  | .label _ _, ip, site, h => by
    cases List.mem_singleton.mp h
    exact ⟨Nat.le_refl _, Nat.le_refl _⟩
  | .tryBlock _ _ body catchBody _, ip, site, h => by
    simp only [Statement.labelSites, List.mem_append, List.mem_cons, List.not_mem_nil,
      or_false] at h
    simp only [Statement.size]
    rcases h with (h | rfl | h) | rfl
    · have := labelSitesOfAll_bounds body h
      omega
    · simp only
      omega
    · have := labelSitesOfAll_bounds catchBody h
      omega
    · simp only
      omega

/-- The same for statements. -/
theorem labelSitesOfAll_bounds : ∀ (stmts : List Statement) {ip : Nat} {site : String × Nat},
    site ∈ labelSitesOfAll stmts ip → ip ≤ site.2 ∧ site.2 ≤ ip + sizeOfAll stmts
  | stmt :: stmts, ip, site, h => by
    rw [sizeOfAll]
    rcases List.mem_append.mp h with h | h
    · have := stmt.labelSites_bounds h
      omega
    · have := labelSitesOfAll_bounds stmts h
      omega

end

/-- What a label resolves to is at most the number of instructions. -/
theorem Function.lookup_label_le {f : Function} {defines : List (String × AstValue)}
    {funcIndexMap : List (String × U16)} {name : String} {pos : U32}
    (h : (f.ctx defines funcIndexMap).labelPositions.lookup name = some pos) :
    pos.toNat ≤ sizeOfAll f.body := by
  rw [f.lookup_label] at h
  obtain ⟨k, hk, rfl⟩ := Option.map_eq_some_iff.mp h
  have hmem : (name, k) ∈ labelSitesOfAll f.body 0 := List.mem_reverse.mp (mem_of_lookup hk)
  have hle := (labelSitesOfAll_bounds f.body hmem).2
  calc (BitVec.ofNat 32 k).toNat = k % 2 ^ 32 := BitVec.toNat_ofNat k 32
    _ ≤ k := Nat.mod_le k _
    _ ≤ sizeOfAll f.body := by simpa using hle

namespace FuncCtx

variable (ctx : FuncCtx)

/-- A bound of all label positions. -/
def LabelsLe (bound : Nat) : Prop :=
  ∀ name pos, ctx.labelPositions.lookup name = some pos → pos.toNat ≤ bound

/-- The label operands of an instruction are positions up to `bound`. -/
def TargetsLe (bound : Nat) (instr : Instruction) : Prop :=
  ∀ pos, .labelTarget pos ∈ instr.operands → pos.toNat ≤ bound

variable {ctx} {bound : Nat}

theorem LabelsLe.labelIp (hle : ctx.LabelsLe bound) (name : String) :
    (ctx.labelIp name).toNat ≤ bound := by
  rw [FuncCtx.labelIp]
  cases hpos : ctx.labelPositions.lookup name with
  | none => exact Nat.zero_le bound
  | some pos => exact hle name pos hpos

theorem LabelsLe.emitInstr (hle : ctx.LabelsLe bound) {instr : Instr} {code : Instruction}
    (h : ctx.emitInstr instr = .ok code) : TargetsLe bound code := by
  intro pos hpos
  obtain ⟨i, shape, v, -, -, hres⟩ := ctx.exists_of_mem_operands h hpos
  obtain ⟨-, name, -, hlookup⟩ := ctx.resolve_labelTarget hres
  exact hle name pos hlookup

mutual

/-- The label operands in the code of a statement are positions of labels, or 0. -/
theorem LabelsLe.emitStatement (hle : ctx.LabelsLe bound) :
    ∀ (stmt : Statement) {code : List Instruction}, ctx.emitStatement stmt = .ok code →
    ∀ instr ∈ code, TargetsLe bound instr
  | .local_ _, code, h, instr, hmem => by
    cases h
    cases List.mem_singleton.mp hmem
    intro pos hpos
    simp at hpos
  | .label _ _, code, h, instr, hmem => by
    cases h
    cases hmem
  | .instr i, code, h, instr, hmem => by
    obtain ⟨c, hc, h⟩ := bind_eq_ok h
    cases h
    cases List.mem_singleton.mp hmem
    exact hle.emitInstr hc
  | .tryBlock catchLabel endLabel body catchBody _, code, h, instr, hmem => by
    obtain ⟨bodyCode, hbody, h⟩ := bind_eq_ok h
    obtain ⟨catchCode, hcatch, h⟩ := bind_eq_ok h
    cases h
    have hc := hle.labelIp catchLabel
    have he := hle.labelIp endLabel
    simp only [List.cons_append, List.mem_cons, List.mem_append, List.not_mem_nil,
      or_false] at hmem
    rcases hmem with rfl | (h | rfl | h) | rfl
    · intro pos hpos
      simp only [List.mem_cons, Operand.labelTarget.injEq, List.not_mem_nil, or_false] at hpos
      rcases hpos with rfl | rfl
      · exact hc
      · exact he
    · exact hle.emitStatements body hbody instr h
    · intro pos hpos
      cases List.mem_singleton.mp hpos
      exact he
    · exact hle.emitStatements catchBody hcatch instr h
    · intro pos hpos
      cases hpos

/-- The same for statements. -/
theorem LabelsLe.emitStatements (hle : ctx.LabelsLe bound) :
    ∀ (stmts : List Statement) {code : List Instruction}, ctx.emitStatements stmts = .ok code →
    ∀ instr ∈ code, TargetsLe bound instr
  | [], code, h, instr, hmem => by
    cases h
    cases hmem
  | stmt :: stmts, code, h, instr, hmem => by
    obtain ⟨c₁, h₁, h⟩ := bind_eq_ok h
    obtain ⟨c₂, h₂, h⟩ := bind_eq_ok h
    cases h
    rcases List.mem_append.mp hmem with hmem | hmem
    · exact hle.emitStatement stmt h₁ instr hmem
    · exact hle.emitStatements stmts h₂ instr hmem

end

end FuncCtx

/-! ## Agreement -/

/-- The two passes count alike on the body of a function. -/
structure PassesAgree (ctx : FuncCtx) (body : List Statement) (code : List Instruction) : Prop where
  /-- at every statement, the `ip` is the number of instructions pushed so far -/
  visit : ∀ {stmt next s}, Visits ctx body .start stmt next s →
    s.out <+: code ∧ s.first.ip.toNat = s.out.length
  total : (collectStatements body Progress.start.first).ip.toNat = code.length
  /-- the position recorded for a `LABEL` is where the code of the next statement starts -/
  label : ∀ {name line next s}, Visits ctx body .start (.label name line) next s →
    (name, s.first.ip) ∈ ctx.labelPositions ∧ s.first.ip.toNat ≤ code.length ∧
      ∀ stmt rest c, next = stmt :: rest → ctx.emitStatement stmt = .ok c →
        c <+: code.drop s.first.ip.toNat
  jump : ∀ instr ∈ code, ∀ pos, .labelTarget pos ∈ instr.operands → pos.toNat ≤ code.length

section Agreement

variable {f : Function} {defines : List (String × AstValue)} {funcIndexMap : List (String × U16)}
  {code : List Instruction} {stmt : Statement} {next : List Statement} {s : Progress}

theorem Progress.agree_start : Progress.start.Agree := rfl

/-- In code that fits, the `ip` is the number of instructions before the statement, which are a
prefix of the code. -/
theorem Visits.prefix_and_ip {ctx : FuncCtx} {body : List Statement}
    (hcode : ctx.emitStatements body = .ok code) (hlen : code.length < 2 ^ 32)
    (h : Visits ctx body .start stmt next s) :
    s.out <+: code ∧ s.first.ip.toNat = s.out.length := by
  obtain ⟨c, cs, rest, -, -, heq⟩ := h.emits hcode
  have hpre : s.out <+: code := ⟨c ++ cs ++ rest, heq.symm⟩
  refine ⟨hpre, ?_⟩
  rw [h.agree Progress.agree_start, BitVec.toNat_ofNat]
  exact Nat.mod_eq_of_lt (Nat.lt_of_le_of_lt hpre.length_le hlen)

/-- The code of the statement after a `LABEL` follows on the code before the `LABEL`. -/
theorem Visits.label_next {ctx : FuncCtx} {body : List Statement} {name : String} {line : Nat}
    (hcode : ctx.emitStatements body = .ok code)
    (h : Visits ctx body .start (.label name line) next s) {rest : List Statement}
    {c : List Instruction} (hnext : next = stmt :: rest) (hc : ctx.emitStatement stmt = .ok c) :
    c <+: code.drop s.out.length := by
  obtain ⟨c₀, cs, after, hc₀, hcs, heq⟩ := h.emits hcode
  cases hc₀
  subst hnext
  obtain ⟨c', hc', hcs⟩ := bind_eq_ok hcs
  obtain ⟨cs', -, hcs⟩ := bind_eq_ok hcs
  cases hcs
  cases hc.symm.trans hc'
  have hcode' : code = s.out ++ (c ++ (cs' ++ after)) := by
    rw [List.nil_append, List.append_assoc c] at heq
    exact heq
  rw [hcode', List.drop_left]
  exact List.prefix_append _ _

/-- The passes agree on code of fewer than `2 ^ 32` instructions, and on no other. -/
theorem Function.passesAgree_iff
    (hcode : (f.ctx defines funcIndexMap).emitStatements f.body = .ok code) :
    PassesAgree (f.ctx defines funcIndexMap) f.body code ↔ code.length < 2 ^ 32 := by
  have hsize := FuncCtx.length_emitStatements _ f.body hcode
  have hpass := collectStatements_eq f.body Progress.agree_start
  constructor
  · intro h
    rw [← h.total]
    exact BitVec.isLt _
  · intro hlen
    have hvisit : ∀ {stmt next s}, Visits (f.ctx defines funcIndexMap) f.body .start stmt next s →
        s.out <+: code ∧ s.first.ip.toNat = s.out.length := Visits.prefix_and_ip hcode hlen
    constructor
    case visit => exact hvisit
    case total =>
      rw [hpass.1, BitVec.toNat_ofNat, hsize]
      show (0 + sizeOfAll f.body) % 2 ^ 32 = _
      rw [Nat.zero_add, Nat.mod_eq_of_lt (hsize ▸ hlen)]
    case label =>
      intro name line next s h
      obtain ⟨hpre, hip⟩ := hvisit h
      refine ⟨?_, hip ▸ hpre.length_le, fun stmt rest c hnext hc => ?_⟩
      · have hmem : toIp (name, s.out.length) ∈ (collectStatements f.body
            Progress.start.first).labels := by
          rw [hpass.2]
          refine List.mem_append_left _ (List.mem_map_of_mem ?_)
          exact List.mem_reverse.mpr h.label_mem
        rw [h.agree Progress.agree_start]
        exact hmem
      · rw [hip]
        exact h.label_next hcode hnext hc
    case jump =>
      refine FuncCtx.LabelsLe.emitStatements ?_ f.body hcode
      intro name pos hpos
      rw [hsize]
      exact f.lookup_label_le hpos

/-- The code of a compiled function. -/
theorem Function.CompilesTo.code_eq {ast : ProgramAst} {fd : FunctionDef}
    (h : f.CompilesTo ast fd) : (f.emitCtx ast).emitStatements f.body = .ok fd.instructions := by
  obtain ⟨params, -, h⟩ := bind_eq_ok h
  obtain ⟨code, hcode, h⟩ := bind_eq_ok h
  cases h
  exact hcode

/-- **The two emitter passes agree** on every function that is compiled to fewer than `2 ^ 32`
instructions, and on no other. -/
theorem emit_passes_agree {ast : ProgramAst} {p : Program} {i : Nat} {fd : FunctionDef}
    (hp : emit ast = .ok p) (hf : ast.functions[i]? = some f) (hfd : p.functions[i]? = some fd) :
    PassesAgree (f.emitCtx ast) f.body fd.instructions ↔ fd.instructions.length < 2 ^ 32 := by
  obtain ⟨f', hf', hcomp⟩ := emit_function hp hfd
  cases hf.symm.trans hf'
  exact f.passesAgree_iff hcomp.code_eq

end Agreement

section Example

/-- A function with a label before an instruction in a `TRY`. -/
def labelledFunction : Function :=
  ⟨"Main", [], [.tryBlock "__catch_2" "__endtry_2" [.label "L" 3, .instr ⟨"HALT", [], 4⟩] [] 2,
    .instr ⟨"JMP", [.ident "L"], 6⟩], 1⟩

theorem emit_passes_agree_labelled :
    PassesAgree (labelledFunction.emitCtx ⟨[], [], [], [labelledFunction]⟩) labelledFunction.body
        [⟨.try_, [.labelTarget 2, .labelTarget 3]⟩, ⟨.halt, []⟩, ⟨.catch_, [.labelTarget 3]⟩,
          ⟨.endTry, []⟩, ⟨.jmp, [.labelTarget 1]⟩] ↔ 5 < 2 ^ 32 :=
  @emit_passes_agree labelledFunction ⟨[], [], [], [labelledFunction]⟩ _ 0
    ⟨"Main", [], [⟨.try_, [.labelTarget 2, .labelTarget 3]⟩, ⟨.halt, []⟩,
      ⟨.catch_, [.labelTarget 3]⟩, ⟨.endTry, []⟩, ⟨.jmp, [.labelTarget 1]⟩]⟩ rfl rfl rfl

/-- A `TRY` block with nothing in it. -/
def emptyTry : Statement := .tryBlock "__catch_1" "__endtry_1" [] [] 1

/-- A function of `n` such blocks. -/
def emptyTries (n : Nat) : Function := ⟨"Main", [], List.replicate n emptyTry, 1⟩

theorem length_partsOfAll_emptyTries (n : Nat) :
    (partsOfAll (List.replicate n emptyTry)).length = n := by
  induction n with
  | zero => rfl
  | succ n ih => rw [List.replicate_succ, partsOfAll, List.length_append, ih, Nat.add_comm]; rfl

theorem sizeOfAll_emptyTries (n : Nat) : sizeOfAll (List.replicate n emptyTry) = 3 * n := by
  induction n with
  | zero => rfl
  | succ n ih =>
    rw [List.replicate_succ, sizeOfAll, ih]
    show 3 + 3 * n = _
    omega

theorem emitStatements_emptyTries (ctx : FuncCtx) (n : Nat) :
    ∃ code, ctx.emitStatements (List.replicate n emptyTry) = .ok code := by
  induction n with
  | zero => exact ⟨[], rfl⟩
  | succ n ih =>
    obtain ⟨code, hcode⟩ := ih
    rw [List.replicate_succ, FuncCtx.emitStatements, hcode]
    exact ⟨_, rfl⟩

/-- They are compiled, to three instructions for each block. -/
theorem emit_emptyTries (n : Nat) : ∃ p fd, emit ⟨[], [], [], [emptyTries n]⟩ = .ok p ∧
    p.functions = [fd] ∧ fd.instructions.length = 3 * n ∧
    (emptyTries n).CompilesTo ⟨[], [], [], [emptyTries n]⟩ fd := by
  let ast : ProgramAst := ⟨[], [], [], [emptyTries n]⟩
  let ctx := (emptyTries n).emitCtx ast
  obtain ⟨code, hcode⟩ := emitStatements_emptyTries ctx n
  have hcomp : (emptyTries n).CompilesTo ast ⟨"Main", [], code⟩ := by
    show (do
      let instructions ← ctx.emitStatements (List.replicate n emptyTry)
      return ⟨"Main", [], instructions⟩ : Except CompileFail FunctionDef) = _
    rw [hcode]
    rfl
  refine ⟨{ Program.new with functions := [⟨"Main", [], code⟩] }, ⟨"Main", [], code⟩, ?_, rfl,
    ?_, hcomp⟩
  · show (do
      let functions ← [emptyTries n].mapM (emitFunction ast.defineMap ast.funcIndexMap)
      return { Program.new with functions } : Except CompileFail Program) = _
    rw [List.mapM_cons, hcomp]
    rfl
  · rw [ctx.length_emitStatements _ hcode, sizeOfAll_emptyTries]

/-- Of `2 ^ 31` blocks the first pass counts fewer instructions than are pushed: three for each,
modulo `2 ^ 32`. -/
theorem emptyTries_disagree :
    ∃ p fd, emit ⟨[], [], [], [emptyTries (2 ^ 31)]⟩ = .ok p ∧ p.functions = [fd] ∧
      (partsOfAll (emptyTries (2 ^ 31)).body).length < 2 ^ 32 ∧
      ¬ PassesAgree ((emptyTries (2 ^ 31)).emitCtx ⟨[], [], [], [emptyTries (2 ^ 31)]⟩)
        (emptyTries (2 ^ 31)).body fd.instructions := by
  obtain ⟨p, fd, hp, hfuncs, hlen, hcomp⟩ := emit_emptyTries (2 ^ 31)
  refine ⟨p, fd, hp, hfuncs, ?_, fun hagree => ?_⟩
  · rw [emptyTries, length_partsOfAll_emptyTries]
    decide
  · have hlt := (Function.passesAgree_iff hcomp.code_eq).mp hagree
    rw [hlen] at hlt
    exact absurd hlt (by decide)

end Example

end Fasm
