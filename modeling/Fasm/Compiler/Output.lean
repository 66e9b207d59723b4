import Fasm.Bytecode.RoundTrip
import Fasm.Compiler.Grammar
import Fasm.Compiler.Uses

/-!
# What the compiler writes is read back

The format prefixes strings, lists and operands with lengths that wrap around, so not every
program survives its encoding.  What the compiler emits does: its strings are texts of tokens, it
has at most two instructions for each token (a `TRY` and its `ENDTRY` make three), and the
operands of an instruction are those of its mnemonic.
-/

namespace Fasm

/-! ## Texts -/

/-- The text of the token, if it has one, fits into the format. -/
def TokenKind.Fits : TokenKind → Prop
  | .stringLit s => FitsString s
  | .ident s => FitsString s
  | _ => True

/-- The texts of the tokens fit. -/
def FitTokens (ts : List Token) : Prop := ∀ t ∈ ts, t.kind.Fits

/-- A string that the value stands for fits. -/
def AstValue.Fits : AstValue → Prop
  | .str s => FitsString s
  | _ => True

mutual

/-- The strings among the operands of the statement fit. -/
def Statement.Fits : Statement → Prop
  | .local_ _ => True
  | .label _ _ => True
  | .instr instr => ∀ v ∈ instr.operands, v.Fits
  | .tryBlock _ _ body catchBody _ => FitsAll body ∧ FitsAll catchBody

/-- The same for statements. -/
def FitsAll : List Statement → Prop
  | [] => True
  | stmt :: stmts => stmt.Fits ∧ FitsAll stmts

end

/-- A function with texts that fit, from `n` tokens. -/
structure Function.Fits (n : Nat) (f : Function) : Prop where
  name : FitsString f.name
  params : ∀ p ∈ f.params, FitsString p.name
  body : FitsAll f.body
  size : f.params.length + sizeOfAll f.body ≤ 2 * n

/-- A program with texts that fit, from `n` tokens. -/
structure ProgramAst.Fits (n : Nat) (prog : ProgramAst) : Prop where
  defines : ∀ d ∈ prog.defines, d.value.Fits
  globals : ∀ g ∈ prog.globalReserves, g.init.Fits
  functions : ∀ f ∈ prog.functions, f.Fits n
  size : prog.globalReserves.length + prog.functions.length ≤ n

section Mono

variable {k n : Nat}

theorem Function.Fits.mono {f : Function} (h : f.Fits k) (hle : k ≤ n) : f.Fits n :=
  { h with size := Nat.le_trans h.size (Nat.mul_le_mul_left 2 hle) }

theorem ProgramAst.Fits.mono {prog : ProgramAst} (h : prog.Fits k) (hle : k ≤ n) : prog.Fits n :=
  { h with
    functions := fun f hf => (h.functions f hf).mono hle
    size := Nat.le_trans h.size hle }

end Mono

/-! ## Derivations -/

/-- The tokens `rest` are behind those that `size` instructions are made of. -/
structure Behind (size : Nat) (ts rest : List Token) : Prop where
  suffix : rest <:+ ts
  length : size + 2 * rest.length ≤ 2 * ts.length

namespace Behind

variable {k l : Nat} {ts m rest : List Token}

theorem trans (h : Behind k ts m) (h' : Behind l m rest) : Behind (k + l) ts rest :=
  ⟨h'.suffix.trans h.suffix, by have := h.length; have := h'.length; omega⟩

theorem mono (h : Behind k ts rest) (hle : l ≤ k) : Behind l ts rest :=
  ⟨h.suffix, by have := h.length; omega⟩

theorem fit (h : Behind k ts rest) (hts : FitTokens ts) : FitTokens rest :=
  fun t ht => hts t (h.suffix.subset ht)

theorem lt (h : Behind k ts rest) (hk : 2 ≤ k) : rest.length < ts.length := by
  have := h.length
  omega

theorem cons {t : Token} : Behind 2 (t :: ts) ts :=
  ⟨List.suffix_cons t ts, by rw [List.length_cons]; omega⟩

end Behind

section Parts

variable {k : TokenKind} {ts rest : List Token} {v : AstValue} {vs : List AstValue}

theorem Heads.behind (h : Heads k ts rest) : Behind 2 ts rest := by
  obtain ⟨line, rfl⟩ := h
  exact .cons

theorem Heads.fits (h : Heads k ts rest) (hts : FitTokens ts) : k.Fits := by
  obtain ⟨line, rfl⟩ := h
  exact hts _ List.mem_cons_self

theorem DerivesValue.behind (h : DerivesValue ts v rest) : Behind 2 ts rest := by
  cases h with
  | deref h hname => exact (h.behind.trans hname.behind).mono (by omega)
  | integer h | hexInt h | float h | str h | null h | true_ h | false_ h | ident h => exact h.behind

theorem DerivesValue.fits (h : DerivesValue ts v rest) (hts : FitTokens ts) : v.Fits := by
  cases h with
  | str h => exact h.fits hts
  | _ => trivial

theorem DerivesU32.behind {n : U32} (h : DerivesU32 ts n rest) : Behind 2 ts rest := by
  cases h with
  | integer h | hexInteger h => exact h.behind

theorem DerivesU8.behind {i : U8} (h : DerivesU8 ts i rest) : Behind 2 ts rest := by
  obtain ⟨v, hv, -⟩ := h
  exact hv.behind

theorem DerivesType.behind {type : FasmType} (h : DerivesType ts type rest) :
    Behind 2 ts rest := by
  obtain ⟨s, hs, -⟩ := h
  exact hs.behind

theorem DerivesOperands.behind (h : DerivesOperands ts vs rest) : Behind 0 ts rest := by
  induction h with
  | none => exact ⟨List.suffix_rfl, by omega⟩
  | last _ hv => exact hv.behind.mono (by omega)
  | more _ hv hcomma _ ih => exact ((hv.behind.trans hcomma.behind).trans ih).mono (by omega)

theorem DerivesOperands.fits (h : DerivesOperands ts vs rest) (hts : FitTokens ts) :
    ∀ v ∈ vs, v.Fits := by
  induction h with
  | none => exact nofun
  | last _ hv => exact List.forall_mem_singleton.mpr (hv.fits hts)
  | more _ hv hcomma _ ih =>
    exact List.forall_mem_cons.mpr ⟨hv.fits hts, ih (hcomma.behind.fit (hv.behind.fit hts))⟩

end Parts

/-- A statement goes to the body that is being read. -/
theorem sizeOfAll_bodies (inCatch : Bool) (stmt : Statement)
    (bodies : List Statement × List Statement) :
    sizeOfAll (if inCatch then (bodies.1, stmt :: bodies.2) else (stmt :: bodies.1, bodies.2)).1 +
        sizeOfAll (if inCatch then (bodies.1, stmt :: bodies.2) else (stmt :: bodies.1, bodies.2)).2
      = stmt.size + (sizeOfAll bodies.1 + sizeOfAll bodies.2) := by
  cases inCatch
  · exact Nat.add_assoc _ _ _
  · exact Nat.add_left_comm _ _ _

theorem fitsAll_bodies (inCatch : Bool) {stmt : Statement}
    {bodies : List Statement × List Statement} (hstmt : stmt.Fits)
    (h : FitsAll bodies.1 ∧ FitsAll bodies.2) :
    FitsAll (if inCatch then (bodies.1, stmt :: bodies.2) else (stmt :: bodies.1, bodies.2)).1 ∧
      FitsAll (if inCatch then (bodies.1, stmt :: bodies.2) else (stmt :: bodies.1, bodies.2)).2 := by
  cases inCatch
  · exact ⟨⟨hstmt, h.1⟩, h.2⟩
  · exact ⟨h.1, hstmt, h.2⟩

mutual

/-- A statement has at most two instructions for each of its tokens. -/
theorem DerivesStatement.behind : ∀ {ts rest : List Token} {stmt : Statement},
    DerivesStatement ts stmt rest → Behind (stmt.size + 1) ts rest
  | _, _, _, .local_ hindex h₁ htype h₂ hname =>
    ((((Behind.cons.trans hindex.behind).trans h₁.behind).trans htype.behind).trans
      h₂.behind).trans hname.behind |>.mono (by simp only [Statement.size]; omega)
  | _, _, _, .label hname =>
    (Behind.cons.trans hname.behind).mono (by simp only [Statement.size]; omega)
  | _, _, _, .asyncInstr hnext hops =>
    ((Behind.cons.trans hnext.behind).trans hops.behind).mono
      (by simp only [Statement.size]; omega)
  | _, _, _, .instr _ hops => (Behind.cons.trans hops.behind).mono (Nat.le_refl _)
  | _, _, _, .tryBlock hbodies =>
    (Behind.cons.trans hbodies.behind).mono (by simp only [Statement.size]; omega)

theorem DerivesTryBody.behind : ∀ {inCatch : Bool} {ts rest : List Token}
    {bodies : List Statement × List Statement}, DerivesTryBody inCatch ts bodies rest →
    Behind (sizeOfAll bodies.1 + sizeOfAll bodies.2 + 2) ts rest
  | _, _, _, _, .catch_ h hbodies => (h.behind.trans hbodies.behind).mono (by omega)
  | _, _, _, _, .endTry h => h.behind
  | inCatch, _, _, _, .stmt _ _ hstmt hbodies =>
    (hstmt.behind.trans hbodies.behind).mono (by rw [sizeOfAll_bodies]; omega)

end

mutual

theorem DerivesStatement.fits : ∀ {ts rest : List Token} {stmt : Statement},
    DerivesStatement ts stmt rest → FitTokens ts → stmt.Fits
  | _, _, _, .local_ _ _ _ _ _, _ => trivial
  | _, _, _, .label _, _ => trivial
  | _, _, _, .asyncInstr hnext hops, hts => hops.fits (hnext.behind.fit (Behind.cons.fit hts))
  | _, _, _, .instr _ hops, hts => hops.fits (Behind.cons.fit hts)
  | _, _, _, .tryBlock hbodies, hts => hbodies.fits (Behind.cons.fit hts)

theorem DerivesTryBody.fits : ∀ {inCatch : Bool} {ts rest : List Token}
    {bodies : List Statement × List Statement}, DerivesTryBody inCatch ts bodies rest →
    FitTokens ts → FitsAll bodies.1 ∧ FitsAll bodies.2
  | _, _, _, _, .catch_ h hbodies, hts => hbodies.fits (h.behind.fit hts)
  | _, _, _, _, .endTry _, _ => ⟨trivial, trivial⟩
  | inCatch, _, _, _, .stmt _ _ hstmt hbodies, hts =>
    fitsAll_bodies inCatch (hstmt.fits hts) (hbodies.fits (hstmt.behind.fit hts))

end

section Items

variable {ts rest : List Token}

theorem DerivesParam.behind {param : ParamDecl} (h : DerivesParam ts param rest) :
    Behind 2 ts rest := by
  obtain ⟨hkey, h₁, htype, h₂, hname, h₃, hrequired⟩ := h
  exact ((((((Behind.cons.trans hkey.behind).trans h₁.behind).trans htype.behind).trans
    h₂.behind).trans hname.behind).trans h₃.behind).trans hrequired.behind |>.mono (by omega)

theorem DerivesParam.fits {param : ParamDecl} (h : DerivesParam ts param rest)
    (hts : FitTokens ts) : FitsString param.name := by
  obtain ⟨hkey, h₁, htype, h₂, hname, -, -⟩ := h
  exact hname.fits ((((Behind.cons.trans hkey.behind).trans h₁.behind).trans
    htype.behind).trans h₂.behind |>.fit hts)

theorem DerivesBody.behind {body : List ParamDecl × List Statement}
    (h : DerivesBody ts body rest) : Behind (body.1.length + sizeOfAll body.2 + 2) ts rest := by
  induction h with
  | endf h => exact h.behind
  | param _ hparam _ ih =>
    exact (hparam.behind.trans ih).mono (by simp only [List.length_cons]; omega)
  | stmt _ _ hstmt _ ih => exact (hstmt.behind.trans ih).mono (by simp only [sizeOfAll]; omega)

theorem DerivesBody.fits {body : List ParamDecl × List Statement} (h : DerivesBody ts body rest)
    (hts : FitTokens ts) : (∀ p ∈ body.1, FitsString p.name) ∧ FitsAll body.2 := by
  induction h with
  | endf _ => exact ⟨List.forall_mem_nil _, trivial⟩
  | param _ hparam _ ih =>
    obtain ⟨hparams, hbody⟩ := ih (hparam.behind.fit hts)
    exact ⟨List.forall_mem_cons.mpr ⟨hparam.fits hts, hparams⟩, hbody⟩
  | stmt _ _ hstmt _ ih =>
    obtain ⟨hparams, hbody⟩ := ih (hstmt.behind.fit hts)
    exact ⟨hparams, hstmt.fits hts, hbody⟩

theorem DerivesFunction.behind {func : Function} (h : DerivesFunction ts func rest) :
    Behind (func.params.length + sizeOfAll func.body + 2) ts rest := by
  obtain ⟨hname, hbody⟩ := h
  exact ((Behind.cons.trans hname.behind).trans hbody.behind).mono (by dsimp only; omega)

theorem DerivesFunction.fits {func : Function} (h : DerivesFunction ts func rest)
    (hts : FitTokens ts) : func.Fits ts.length := by
  have hlen := h.behind.length
  obtain ⟨hname, hbody⟩ := h
  have hts₁ := Behind.cons.fit hts
  obtain ⟨hparams, hstmts⟩ := hbody.fits (hname.behind.fit hts₁)
  exact ⟨hname.fits hts₁, hparams, hstmts, by dsimp only at hlen ⊢; omega⟩

/-- A program with texts that fit is derived from tokens whose texts fit. -/
theorem DerivesProgram.fits {prog : ProgramAst} (h : DerivesProgram ts prog rest)
    (hts : FitTokens ts) : prog.Fits ts.length := by
  induction h with
  | eof _ =>
    exact ⟨List.forall_mem_nil _, List.forall_mem_nil _, List.forall_mem_nil _, Nat.zero_le _⟩
  | @define line _ _ _ _ _ _ _ _ hname h₁ hvalue _ ih =>
    have hvalue' :=
      ((Behind.cons (t := ⟨.ident "DEFINE", line⟩)).trans hname.behind).trans h₁.behind
    have hbehind := hvalue'.trans hvalue.behind
    have hprog := (ih (hbehind.fit hts)).mono (Nat.le_of_lt (hbehind.lt (by omega)))
    exact { hprog with
      defines := List.forall_mem_cons.mpr ⟨hvalue.fits (hvalue'.fit hts), hprog.defines⟩ }
  | @import_ line _ _ _ _ _ _ _ _ _ hpath hword halias _ ih =>
    have hbehind := (((Behind.cons (t := ⟨.ident "IMPORT", line⟩)).trans hpath.behind).trans
      hword.behind).trans halias.behind
    have hprog := (ih (hbehind.fit hts)).mono (Nat.le_of_lt (hbehind.lt (by omega)))
    exact { hprog with }
  | @reserve line _ _ _ _ _ _ _ _ _ _ _ hindex h₁ htype h₂ hinit _ ih =>
    have hinit' := ((((Behind.cons (t := ⟨.ident "RESERVE", line⟩)).trans hindex.behind).trans
      h₁.behind).trans htype.behind).trans h₂.behind
    have hbehind := hinit'.trans hinit.behind
    have hlt := hbehind.lt (by omega)
    have hprog := ih (hbehind.fit hts)
    have hsize := hprog.size
    exact { hprog.mono (Nat.le_of_lt hlt) with
      globals := List.forall_mem_cons.mpr ⟨hinit.fits (hinit'.fit hts), hprog.globals⟩
      size := by
        rw [List.length_cons, Nat.add_right_comm]
        exact Nat.le_trans (Nat.succ_le_succ hsize) hlt }
  | func hfunc _ ih =>
    have hbehind := hfunc.behind
    have hlt := hbehind.lt (by omega)
    have hprog := ih (hbehind.fit hts)
    have hsize := hprog.size
    have hmono := hprog.mono (Nat.le_of_lt hlt)
    exact { hmono with
      functions := List.forall_mem_cons.mpr ⟨hfunc.fits hts, hmono.functions⟩
      size := Nat.le_trans (Nat.succ_le_succ hsize) hlt }

end Items

/-! ## Code -/

/-- A value that is resolved through names has the string of one of them. -/
theorem astValueToOperand_fits {defines : List (String × AstValue)} {locals : List (String × U8)}
    (hdefines : ∀ name v, defines.lookup name = some v → v.Fits) : ∀ (fuel : Nat) {v : AstValue}
    {op : Operand}, v.Fits → astValueToOperand defines locals fuel v = .ok op → op.Fits
  | 0, _, _, _, h => by cases h
  | fuel + 1, v, op, hv, h => by
    cases v with
    | str s =>
      cases h
      exact hv
    | ident name =>
      rw [astValueToOperand] at h
      split at h
      · cases h
        trivial
      split at h
      · split at h <;> cases h <;> trivial
      split at h
      · cases h
        trivial
      split at h
      case h_1 value hlookup =>
        exact astValueToOperand_fits hdefines fuel (hdefines name value hlookup) h
      · split at h <;> cases h <;> trivial
    | deref name =>
      rw [astValueToOperand] at h
      split at h <;> cases h <;> trivial
    | _ =>
      cases h
      trivial

namespace FuncCtx

variable {ctx : FuncCtx}

/-- Only a value may be a string. -/
theorem resolve_fits (hdefines : ∀ name v, ctx.defines.lookup name = some v → v.Fits) {ln n : Nat}
    {v : AstValue} {shape : Shape} {op : Operand} (hv : v.Fits)
    (h : ctx.resolve ln n v shape = .ok op) : op.Fits := by
  have hgives := ctx.gives_of_resolve h
  cases op with
  | imm i =>
    cases i with
    | str s =>
      cases shape with
      | val => exact astValueToOperand_fits hdefines _ hv h
      | _ => cases hgives
    | _ => trivial
  | _ => trivial

/-- No mnemonic has more than four operands. -/
theorem length_shapes (instr : Instr) : instr.shapes.length ≤ 4 := by
  have hall : ∀ row ∈ instrTable, row.2.2.length ≤ 4 := by decide
  rw [Instr.shapes]
  split
  · exact Nat.zero_le _
  split
  · split <;> decide
  · cases hlookup : instrTable.lookup instr.mnemonic with
    | none => exact Nat.zero_le _
    | some row => exact hall _ (mem_of_lookup hlookup)

theorem emitInstr_fits (hdefines : ∀ name v, ctx.defines.lookup name = some v → v.Fits)
    {instr : Instr} {code : Instruction} (hvs : ∀ v ∈ instr.operands, v.Fits)
    (h : ctx.emitInstr instr = .ok code) : code.Fits := by
  constructor
  · have hlen := length_shapes instr
    rw [(ctx.emitInstr_eq h).1]
    omega
  · intro op hop
    obtain ⟨i, shape, v, -, hv, hres⟩ := ctx.exists_of_mem_operands h hop
    exact resolve_fits hdefines (hvs v (List.mem_of_getElem? hv)) hres

mutual

theorem emitStatement_fits (hdefines : ∀ name v, ctx.defines.lookup name = some v → v.Fits) :
    ∀ (stmt : Statement) {code : List Instruction}, stmt.Fits →
      ctx.emitStatement stmt = .ok code → ∀ i ∈ code, i.Fits
  | .local_ _, code, _, h => by
    cases h
    refine List.forall_mem_singleton.mpr ⟨Nat.le_of_ble_eq_true rfl, fun op hop => ?_⟩
    simp only [List.mem_cons, List.not_mem_nil, or_false] at hop
    rcases hop with rfl | rfl | rfl <;> trivial
  | .label _ _, code, _, h => by
    cases h
    exact nofun
  | .instr instr, code, hfits, h => by
    obtain ⟨c, hc, h⟩ := bind_eq_ok h
    cases h
    exact List.forall_mem_singleton.mpr (emitInstr_fits hdefines hfits hc)
  | .tryBlock catchLabel endLabel body catchBody _, code, hfits, h => by
    obtain ⟨bodyCode, hbody, h⟩ := bind_eq_ok h
    obtain ⟨catchCode, hcatch, h⟩ := bind_eq_ok h
    cases h
    have hbodyFits := emitStatements_fits hdefines body hfits.1 hbody
    have hcatchFits := emitStatements_fits hdefines catchBody hfits.2 hcatch
    have hlabel : ∀ l : U32, (Operand.labelTarget l).Fits := fun _ => trivial
    intro i hi
    simp only [List.mem_append, List.mem_cons, List.not_mem_nil, or_false] at hi
    rcases hi with ((rfl | hi) | rfl | hi) | rfl
    · exact ⟨Nat.le_of_ble_eq_true rfl, by simp [hlabel]⟩
    · exact hbodyFits i hi
    · exact ⟨Nat.le_of_ble_eq_true rfl, by simp [hlabel]⟩
    · exact hcatchFits i hi
    · exact ⟨Nat.zero_le _, nofun⟩

theorem emitStatements_fits (hdefines : ∀ name v, ctx.defines.lookup name = some v → v.Fits) :
    ∀ (stmts : List Statement) {code : List Instruction}, FitsAll stmts →
      ctx.emitStatements stmts = .ok code → ∀ i ∈ code, i.Fits
  | [], code, _, h => by
    cases h
    exact nofun
  | stmt :: stmts, code, hfits, h => by
    obtain ⟨code₁, h₁, h⟩ := bind_eq_ok h
    obtain ⟨code₂, h₂, h⟩ := bind_eq_ok h
    cases h
    have hstmt := emitStatement_fits hdefines stmt hfits.1 h₁
    have hstmts := emitStatements_fits hdefines stmts hfits.2 h₂
    exact fun i hi => (List.mem_append.mp hi).elim (hstmt i) (hstmts i)

end

end FuncCtx

/-- The elements of a mapped list come from the elements. -/
theorem forall_of_mapM {ε α β : Type} {g : α → Except ε β} {l : List α} {l' : List β}
    {P : α → Prop} {Q : β → Prop} (h : l.mapM g = .ok l') (hl : ∀ x ∈ l, P x)
    (hg : ∀ x y, P x → g x = .ok y → Q y) : ∀ y ∈ l', Q y := by
  intro y hy
  obtain ⟨i, hi, rfl⟩ := List.mem_iff_getElem.mp hy
  obtain ⟨x, hx, hgx⟩ := getElem?_of_mapM h (List.getElem?_eq_getElem hi)
  exact hg x _ (hl x (List.mem_of_getElem? hx)) hgx

section Emit

variable {ast : ProgramAst} {n : Nat}

theorem ProgramAst.Fits.lookup (h : ast.Fits n) (name : String) (v : AstValue)
    (hlookup : ast.defineMap.lookup name = some v) : v.Fits := by
  have hmem := mem_of_lookup hlookup
  rw [ProgramAst.defineMap, List.mem_reverse] at hmem
  obtain ⟨d, hd, heq⟩ := List.mem_map.mp hmem
  cases heq
  exact h.defines d hd

theorem emitGlobal_fits (h : ast.Fits n) {gr : GlobalReserve} {code : Instruction}
    (hgr : gr.init.Fits) (hcode : emitGlobal ast.defineMap gr = .ok code) : code.Fits := by
  obtain ⟨init, hinit, hcode⟩ := bind_eq_ok hcode
  cases hcode
  refine ⟨Nat.le_of_ble_eq_true rfl, fun op hop => ?_⟩
  simp only [List.mem_cons, List.not_mem_nil, or_false] at hop
  rcases hop with rfl | rfl | rfl
  · trivial
  · trivial
  · exact astValueToOperand_fits h.lookup _ hgr hinit

theorem emitFunction_fits (h : ast.Fits n) (hn : n < 2 ^ 31) {func : Function} {fd : FunctionDef}
    (hfunc : func.Fits n) (hfd : func.CompilesTo ast fd) : fd.Fits := by
  obtain ⟨params, hparams, hfd⟩ := bind_eq_ok hfd
  obtain ⟨code, hcode, hfd⟩ := bind_eq_ok hfd
  cases hfd
  have hsize := hfunc.size
  refine ⟨hfunc.name, ?_, ?_, ?_, FuncCtx.emitStatements_fits h.lookup _ hfunc.body hcode⟩
  · rw [length_of_mapM hparams]
    omega
  · refine forall_of_mapM hparams hfunc.params fun p d hp hd => ?_
    obtain ⟨key, -, hd⟩ := bind_eq_ok hd
    cases hd
    exact hp
  · rw [FuncCtx.length_emitStatements _ func.body hcode]
    omega

/-- What is emitted of a program with texts that fit is within the limits of the format. -/
theorem emit_fits (h : ast.Fits n) (hn : n < 2 ^ 31) {p : Program} (hp : emit ast = .ok p) :
    p.Fits := by
  obtain ⟨inits, hinits, hp⟩ := bind_eq_ok hp
  obtain ⟨funcs, hfuncs, hp⟩ := bind_eq_ok hp
  cases hp
  have hsize := h.size
  refine ⟨?_, forall_of_mapM hinits h.globals fun _ _ => emitGlobal_fits h, ?_,
    forall_of_mapM hfuncs h.functions fun _ _ => emitFunction_fits h hn⟩
  · rw [length_of_mapM hinits]
    omega
  · rw [length_of_mapM hfuncs]
    omega

end Emit

/-- The bytecode that the compiler writes for a source is decoded to the very program that it has
compiled, if no identifier or string of the source is too long for the format. -/
theorem compileSource_loads {u : Unicode} {source : String} {tokens : List Token} {p : Program}
    (htokens : tokenize u source = .ok tokens) (hfits : FitTokens tokens)
    (hlen : tokens.length < 2 ^ 31) (h : compileSource u source = .ok p) :
    decodeProgram (encodeProgram p) = .ok p := by
  obtain ⟨ast, hast, hp⟩ := bind_eq_ok h
  obtain ⟨tokens', htokens', hparse, -⟩ := frontend_stages hast
  cases htokens.symm.trans htokens'
  obtain ⟨init, line, rfl⟩ := (tokenize_lexes u source).ends tokens htokens
  obtain ⟨rest, hderives⟩ := (parse_ok_iff u init line ast).mp hparse
  have hread := decodeProgramAt_encode (emit_fits (hderives.fits hfits) hlen hp) []
  rw [List.append_nil] at hread
  rw [decodeProgram, hread]
  rfl

section Example

/-- A name, a parameter and a `TRY` block. -/
def retDefineSource : String :=
  "DEFINE A, 7\nFUNC Main\nPARAM A, INT32, x, REQUIRED\nTRY\nCATCH\nENDTRY\nRET A\nENDF"

private def retDefineTokens : List Token :=
  [⟨.ident "DEFINE", 1⟩, ⟨.ident "A", 1⟩, ⟨.comma, 1⟩, ⟨.integer 7, 1⟩, ⟨.ident "FUNC", 2⟩,
    ⟨.ident "Main", 2⟩, ⟨.ident "PARAM", 3⟩, ⟨.ident "A", 3⟩, ⟨.comma, 3⟩, ⟨.ident "INT32", 3⟩,
    ⟨.comma, 3⟩, ⟨.ident "x", 3⟩, ⟨.comma, 3⟩, ⟨.ident "REQUIRED", 3⟩, ⟨.ident "TRY", 4⟩,
    ⟨.ident "CATCH", 5⟩, ⟨.ident "ENDTRY", 6⟩, ⟨.ident "RET", 7⟩, ⟨.ident "A", 7⟩,
    ⟨.ident "ENDF", 8⟩, ⟨.eof, 8⟩]

/-- What it is compiled to. -/
def retDefineProgram : Program :=
  ⟨1, [], [⟨"Main", [⟨7, .int .int32, "x", true⟩], [⟨.try_, [.labelTarget 1, .labelTarget 2]⟩,
    ⟨.catch_, [.labelTarget 2]⟩, ⟨.endTry, []⟩, ⟨.ret, [.imm (.int .int32 7)]⟩]⟩]⟩

private theorem retDefine_tokens : tokenize .ascii retDefineSource = .ok retDefineTokens := (rfl)

private theorem retDefine_compiles : compileSource .ascii retDefineSource = .ok retDefineProgram :=
  (compileSource_eq (frontend_eq retDefine_tokens rfl rfl)).trans rfl

private theorem retDefine_fits : FitTokens retDefineTokens := by
  have hshort : ∀ s ∈ ["DEFINE", "A", "FUNC", "Main", "PARAM", "INT32", "x", "REQUIRED", "TRY",
    "CATCH", "ENDTRY", "RET", "ENDF"], FitsString s := by decide
  simp only [List.forall_mem_cons] at hshort
  simp only [FitTokens, retDefineTokens, List.forall_mem_cons, TokenKind.Fits]
  simp only [hshort, true_and]
  exact List.forall_mem_nil _

private theorem retDefine_short : retDefineTokens.length < 2 ^ 31 :=
  Nat.lt_of_lt_of_le (by decide : retDefineTokens.length < 2 ^ 5)
    (Nat.pow_le_pow_right (by decide) (by decide))

theorem compileSource_loads_retDefine :
    decodeProgram (encodeProgram retDefineProgram) = .ok retDefineProgram :=
  compileSource_loads retDefine_tokens retDefine_fits retDefine_short retDefine_compiles

end Example

end Fasm
