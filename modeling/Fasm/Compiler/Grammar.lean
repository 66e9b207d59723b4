import Fasm.Compiler.Frontend
import Fasm.Lib.Decides
import Mathlib.Tactic.MkIffOfInductiveProp
import Mathlib.Tactic.SplitIfs

/-!
# The grammar that the parser accepts

A derivation relates the tokens that it starts from, a tree, and the tokens behind what it has
read.  The operands of an instruction end before a keyword or the end of the file, or behind an
operand without a comma after it, so that a comma may stand behind the last one.  `CATCH` may
stand again and again in a `TRY` block.  The parser returns a tree if and only if it is derived
from the tokens, and an `Err` if none is.
-/

namespace Fasm

/-! ## Derivations -/

/-- The tokens `ts` are one of the kind `k` and the tokens `rest` behind it. -/
def Heads (k : TokenKind) (ts rest : List Token) : Prop := ∃ line, ts = ⟨k, line⟩ :: rest

/-- Values. -/
@[mk_iff]
inductive DerivesValue (ts : List Token) : AstValue → List Token → Prop
  | integer {n : U64} {rest : List Token} (h : Heads (.integer n) ts rest) :
    DerivesValue ts (.integer n) rest
  | hexInt {n : U64} {rest : List Token} (h : Heads (.hexInteger n) ts rest) :
    DerivesValue ts (.hexInt n) rest
  | float {bits : U64} {rest : List Token} (h : Heads (.float bits) ts rest) :
    DerivesValue ts (.float bits) rest
  | str {s : String} {rest : List Token} (h : Heads (.stringLit s) ts rest) :
    DerivesValue ts (.str s) rest
  | null {rest : List Token} (h : Heads (.ident "NULL") ts rest) : DerivesValue ts .null rest
  | true_ {rest : List Token} (h : Heads (.ident "TRUE") ts rest) : DerivesValue ts .true_ rest
  | false_ {rest : List Token} (h : Heads (.ident "FALSE") ts rest) : DerivesValue ts .false_ rest
  | ident {s : String} {rest : List Token} (h : Heads (.ident s) ts rest)
    (hs : s ∉ ["NULL", "TRUE", "FALSE"]) : DerivesValue ts (.ident s) rest
  | deref {name : String} {m rest : List Token} (h : Heads .ampersand ts m)
    (hname : Heads (.ident name) m rest) : DerivesValue ts (.deref name) rest

/-- Numbers of 32 bits: the low ones of a literal that is not negative. -/
@[mk_iff]
inductive DerivesU32 (ts : List Token) : U32 → List Token → Prop
  | integer {n : U64} {rest : List Token} (h : Heads (.integer n) ts rest) (hn : 0 ≤ n.toInt) :
    DerivesU32 ts (n.setWidth 32) rest
  | hexInteger {n : U64} {rest : List Token} (h : Heads (.hexInteger n) ts rest) :
    DerivesU32 ts (n.setWidth 32) rest

/-- The number of a slot. -/
def DerivesU8 (ts : List Token) (i : U8) (rest : List Token) : Prop :=
  ∃ v, DerivesU32 ts v rest ∧ v.toNat ≤ 255 ∧ i = v.setWidth 8

/-- The name of a type. -/
def DerivesType (ts : List Token) (type : FasmType) (rest : List Token) : Prop :=
  ∃ s, Heads (.ident s) ts rest ∧ parseFasmType s = some type

/-- Operands end before the token. -/
def TokenKind.endsOperands : TokenKind → Bool
  | .eof => true
  | .ident s => isKeyword s
  | _ => false

/-- Operands end before the tokens. -/
def EndOperands (ts : List Token) : Prop :=
  ∃ k behind, Heads k ts behind ∧ k.endsOperands = true

/-- The operands of an instruction. -/
@[mk_iff]
inductive DerivesOperands : List Token → List AstValue → List Token → Prop
  | none {ts : List Token} (h : EndOperands ts) : DerivesOperands ts [] ts
  | last {ts rest : List Token} {v : AstValue} (h : ¬ EndOperands ts)
    (hv : DerivesValue ts v rest) (hcomma : ∀ behind, ¬ Heads .comma rest behind) :
    DerivesOperands ts [v] rest
  | more {ts m m' rest : List Token} {v : AstValue} {vs : List AstValue} (h : ¬ EndOperands ts)
    (hv : DerivesValue ts v m) (hcomma : Heads .comma m m') (hvs : DerivesOperands m' vs rest) :
    DerivesOperands ts (v :: vs) rest

mutual

/-- Statements. -/
inductive DerivesStatement : List Token → Statement → List Token → Prop
  | local_ {line : Nat} {ts m₁ m₂ m₃ m₄ rest : List Token} {index : U8} {type : FasmType}
    {name : String} (hindex : DerivesU8 ts index m₁) (h₁ : Heads .comma m₁ m₂)
    (htype : DerivesType m₂ type m₃) (h₂ : Heads .comma m₃ m₄)
    (hname : Heads (.ident name) m₄ rest) :
    DerivesStatement (⟨.ident "LOCAL", line⟩ :: ts) (.local_ ⟨index, type, name, line⟩) rest
  | label {line : Nat} {ts rest : List Token} {name : String}
    (hname : Heads (.ident name) ts rest) :
    DerivesStatement (⟨.ident "LABEL", line⟩ :: ts) (.label name line) rest
  | asyncInstr {line : Nat} {ts m rest : List Token} {next : String} {ops : List AstValue}
    (hnext : Heads (.ident next) ts m) (hops : DerivesOperands m ops rest) :
    DerivesStatement (⟨.ident "ASYNC", line⟩ :: ts) (.instr ⟨"ASYNC_" ++ next, ops, line⟩) rest
  | instr {line : Nat} {ts rest : List Token} {kw : String} {ops : List AstValue}
    (hkw : kw ∉ ["TRY", "LOCAL", "LABEL", "ASYNC"]) (hops : DerivesOperands ts ops rest) :
    DerivesStatement (⟨.ident kw, line⟩ :: ts) (.instr ⟨kw, ops, line⟩) rest
  | tryBlock {line : Nat} {ts rest : List Token} {bodies : List Statement × List Statement}
    (hbodies : DerivesTryBody false ts bodies rest) :
    DerivesStatement (⟨.ident "TRY", line⟩ :: ts)
      (.tryBlock ("__catch_" ++ toString line) ("__endtry_" ++ toString line) bodies.1 bodies.2
        line) rest

/-- The statements of a `TRY` block before and behind its first `CATCH`. -/
inductive DerivesTryBody :
    Bool → List Token → List Statement × List Statement → List Token → Prop
  | catch_ {inCatch : Bool} {ts m rest : List Token} {bodies : List Statement × List Statement}
    (h : Heads (.ident "CATCH") ts m) (hbodies : DerivesTryBody true m bodies rest) :
    DerivesTryBody inCatch ts bodies rest
  | endTry {inCatch : Bool} {ts rest : List Token} (h : Heads (.ident "ENDTRY") ts rest) :
    DerivesTryBody inCatch ts ([], []) rest
  | stmt {inCatch : Bool} {ts behind m rest : List Token} {kw : String} {stmt : Statement}
    {bodies : List Statement × List Statement} (h : Heads (.ident kw) ts behind)
    (hkw : kw ∉ ["CATCH", "ENDTRY"]) (hstmt : DerivesStatement ts stmt m)
    (hbodies : DerivesTryBody inCatch m bodies rest) :
    DerivesTryBody inCatch ts
      (if inCatch then (bodies.1, stmt :: bodies.2) else (stmt :: bodies.1, bodies.2)) rest

end

/-- The declaration of a parameter. -/
inductive DerivesParam : List Token → ParamDecl → List Token → Prop
  | param {line : Nat} {ts m₁ m₂ m₃ m₄ m₅ m₆ rest : List Token} {key : AstValue}
    {type : FasmType} {name : String} {required : Bool} (hkey : DerivesValue ts key m₁)
    (h₁ : Heads .comma m₁ m₂) (htype : DerivesType m₂ type m₃) (h₂ : Heads .comma m₃ m₄)
    (hname : Heads (.ident name) m₄ m₅) (h₃ : Heads .comma m₅ m₆)
    (hrequired : Heads (.ident (if required then "REQUIRED" else "OPTIONAL")) m₆ rest) :
    DerivesParam (⟨.ident "PARAM", line⟩ :: ts) ⟨key, type, name, required, line⟩ rest

/-- The parameters and the statements of a function. -/
inductive DerivesBody : List Token → List ParamDecl × List Statement → List Token → Prop
  | endf {ts rest : List Token} (h : Heads (.ident "ENDF") ts rest) : DerivesBody ts ([], []) rest
  | param {ts behind m rest : List Token} {param : ParamDecl}
    {body : List ParamDecl × List Statement} (h : Heads (.ident "PARAM") ts behind)
    (hparam : DerivesParam ts param m) (hbody : DerivesBody m body rest) :
    DerivesBody ts (param :: body.1, body.2) rest
  | stmt {ts behind m rest : List Token} {kw : String} {stmt : Statement}
    {body : List ParamDecl × List Statement} (h : Heads (.ident kw) ts behind)
    (hkw : kw ∉ ["ENDF", "PARAM"]) (hstmt : DerivesStatement ts stmt m)
    (hbody : DerivesBody m body rest) : DerivesBody ts (body.1, stmt :: body.2) rest

/-- Functions. -/
inductive DerivesFunction : List Token → Function → List Token → Prop
  | func {line : Nat} {ts m rest : List Token} {name : String}
    {body : List ParamDecl × List Statement} (hname : Heads (.ident name) ts m)
    (hbody : DerivesBody m body rest) :
    DerivesFunction (⟨.ident "FUNC", line⟩ :: ts) ⟨name, body.1, body.2, line⟩ rest

/-- Programs: their items, up to the end of the file. -/
inductive DerivesProgram : List Token → ProgramAst → List Token → Prop
  | eof {ts rest : List Token} (h : Heads .eof ts rest) : DerivesProgram ts ⟨[], [], [], []⟩ ts
  | define {line : Nat} {ts m₁ m₂ m₃ rest : List Token} {name : String} {value : AstValue}
    {prog : ProgramAst} (hname : Heads (.ident name) ts m₁) (h₁ : Heads .comma m₁ m₂)
    (hvalue : DerivesValue m₂ value m₃) (hprog : DerivesProgram m₃ prog rest) :
    DerivesProgram (⟨.ident "DEFINE", line⟩ :: ts)
      { prog with defines := ⟨name, value, line⟩ :: prog.defines } rest
  | import_ {line : Nat} {ts m₁ m₂ m₃ rest : List Token} {path word alias_ : String}
    {prog : ProgramAst} (hpath : Heads (.stringLit path) ts m₁) (hword : Heads (.ident word) m₁ m₂)
    (halias : Heads (.ident alias_) m₂ m₃) (hprog : DerivesProgram m₃ prog rest) :
    DerivesProgram (⟨.ident "IMPORT", line⟩ :: ts)
      { prog with imports := ⟨path, alias_, line⟩ :: prog.imports } rest
  | reserve {line : Nat} {ts m₁ m₂ m₃ m₄ m₅ rest : List Token} {index : U32} {type : FasmType}
    {init : AstValue} {prog : ProgramAst} (hindex : DerivesU32 ts index m₁)
    (h₁ : Heads .comma m₁ m₂) (htype : DerivesType m₂ type m₃) (h₂ : Heads .comma m₃ m₄)
    (hinit : DerivesValue m₄ init m₅) (hprog : DerivesProgram m₅ prog rest) :
    DerivesProgram (⟨.ident "RESERVE", line⟩ :: ts)
      { prog with globalReserves := ⟨index, type, init, line⟩ :: prog.globalReserves } rest
  | func {line : Nat} {ts m rest : List Token} {func : Function} {prog : ProgramAst}
    (hfunc : DerivesFunction (⟨.ident "FUNC", line⟩ :: ts) func m)
    (hprog : DerivesProgram m prog rest) :
    DerivesProgram (⟨.ident "FUNC", line⟩ :: ts)
      { prog with functions := func :: prog.functions } rest

/-! ## Deciding -/

/-- The tokens from the cursor on. -/
def Cursor.tokens (c : Cursor) : List Token := c.cur :: c.rest

@[simp]
theorem heads_tokens {k : TokenKind} {c : Cursor} {rest : List Token} :
    Heads k c.tokens rest ↔ c.cur.kind = k ∧ rest = c.rest := by
  obtain ⟨⟨kind, line⟩, ts⟩ := c
  constructor
  · rintro ⟨_, ⟨⟩⟩
    exact ⟨rfl, rfl⟩
  · rintro ⟨rfl, rfl⟩
    exact ⟨line, rfl⟩

namespace ParseM

variable {u : Unicode} {α β : Type} {c : Cursor} {R : α → List Token → Prop}

/-- From `c` the parser decides `R`, as far as the fuel goes. -/
abbrev Derives (x : ParseM α) (c : Cursor) (R : α → List Token → Prop) : Prop :=
  Decides (· = .diverges) Cursor.Ends Cursor.tokens x c R

theorem derives_fail {ln : Nat} {msg : String} (h : ∀ b t, ¬ R b t) :
    Derives (fail ln msg) c R := .throw h

theorem derives_unexpected {t : Token} {expected : String} (h : ∀ b t, ¬ R b t) :
    Derives (unexpected u t expected) c R := .throw h

/-- Before the end of the file the current token is read. -/
theorem derives_advance (hc : c.Ends) {f : Token → ParseM α}
    (hf : ∀ c', c'.Ends → (c.cur.kind ≠ .eof → c'.tokens = c.rest) → Derives (f c.cur) c' R) :
    Derives (advance >>= f) c R := by
  obtain ⟨cur, rest⟩ := c
  cases rest with
  | nil => exact hf ⟨cur, []⟩ hc fun hcur => absurd hc hcur
  | cons t rest =>
    rw [Cursor.Ends, List.getLastD_cons] at hc
    exact hf ⟨t, rest⟩ hc fun _ => rfl

theorem derives_expectIdent (hc : c.Ends) :
    Derives (expectIdent u) c fun s rest => Heads (.ident s) c.tokens rest := by
  refine derives_advance hc fun c' hc' htokens => ?_
  simp only [heads_tokens]
  cases hkind : c.cur.kind with
  | ident s =>
    rw [← htokens (by simp [hkind])]
    exact .pure hc' fun b t => by simp only [TokenKind.ident.injEq, eq_comm]
  | _ => exact derives_unexpected (by rintro _ _ ⟨⟨⟩, -⟩)

theorem derives_expectString (hc : c.Ends) :
    Derives (expectString u) c fun s rest => Heads (.stringLit s) c.tokens rest := by
  refine derives_advance hc fun c' hc' htokens => ?_
  simp only [heads_tokens]
  cases hkind : c.cur.kind with
  | stringLit s =>
    rw [← htokens (by simp [hkind])]
    exact .pure hc' fun b t => by simp only [TokenKind.stringLit.injEq, eq_comm]
  | _ => exact derives_unexpected (by rintro _ _ ⟨⟨⟩, -⟩)

theorem derives_expectComma (hc : c.Ends) :
    Derives (expectComma u) c fun _ rest => Heads .comma c.tokens rest := by
  refine derives_advance hc fun c' hc' htokens => ?_
  simp only [heads_tokens]
  refine .ite (fun hkind => ?_) fun hkind => ?_
  · rw [← htokens (by simp [hkind])]
    exact .pure hc' fun b t => by simp only [hkind, true_and]
  · exact derives_unexpected (by rintro _ _ ⟨h, -⟩; exact hkind h)

theorem derives_parseType (hc : c.Ends) :
    Derives (parseType u) c fun type rest => DerivesType c.tokens type rest := by
  refine derives_advance hc fun c' hc' htokens => ?_
  simp only [DerivesType, heads_tokens]
  cases hkind : c.cur.kind with
  | ident s =>
    rw [← htokens (by simp [hkind])]
    cases htype : parseFasmType s with
    | none =>
      simp only [htype]
      refine derives_fail ?_
      rintro type _ ⟨s', ⟨⟨⟩, -⟩, hs⟩
      cases htype.symm.trans hs
    | some type =>
      simp only [htype]
      refine .pure hc' fun b t => ?_
      constructor
      · rintro ⟨s', ⟨⟨⟩, rfl⟩, hs⟩
        exact ⟨(Option.some.inj (htype.symm.trans hs)).symm, rfl⟩
      · rintro ⟨rfl, rfl⟩
        exact ⟨s, ⟨rfl, rfl⟩, htype⟩
  | _ => exact derives_unexpected (by rintro _ _ ⟨_, ⟨⟨⟩, -⟩, -⟩)

theorem derives_parseU32 (hc : c.Ends) :
    Derives (parseU32 u) c fun v rest => DerivesU32 c.tokens v rest := by
  refine derives_advance hc fun c' hc' htokens => ?_
  cases hkind : c.cur.kind with
  | integer n =>
    refine .ite (fun hn => .pure hc' fun b t => ?_) fun hn => derives_unexpected fun b t => ?_
    · simp [derivesU32_iff, hkind, htokens (by simp [hkind]), hn, and_assoc, and_comm]
    · simp [derivesU32_iff, hkind, hn]
  | hexInteger n =>
    refine .pure hc' fun b t => ?_
    simp [derivesU32_iff, hkind, htokens (by simp [hkind]), and_assoc, and_comm]
  | _ => exact derives_unexpected fun b t => by simp [derivesU32_iff, hkind]

theorem derives_parseU8 (hc : c.Ends) :
    Derives (parseU8 u) c fun i rest => DerivesU8 c.tokens i rest := by
  refine ((derives_parseU32 hc).bind (S := fun v m i t => v.toNat ≤ 255 ∧ i = v.setWidth 8 ∧ t = m)
    fun v c' hc' _ => ?_).congr fun i t => ?_
  · refine .ite (fun hv => .throw ?_) fun hv => .pure hc' fun b t => ?_
    · rintro i t ⟨hle, -⟩
      exact absurd hle (Nat.not_le.mpr hv)
    · simp [Nat.not_lt.mp hv]
  · constructor
    · rintro ⟨v, hv, hle, rfl⟩
      exact ⟨v, t, hv, hle, rfl, rfl⟩
    · rintro ⟨v, m, hv, hle, rfl, rfl⟩
      exact ⟨v, hv, hle, rfl⟩

theorem derives_parseValue (hc : c.Ends) :
    Derives (parseValue u) c fun v rest => DerivesValue c.tokens v rest := by
  rw [parseValue]
  refine derives_advance hc fun c' hc' htokens => ?_
  cases hkind : c.cur.kind with
  | ident s =>
    have hrest := htokens (by simp [hkind])
    refine .ite (fun hnull => .pure hc' fun b t => ?_) fun hnull => ?_
    · simp [derivesValue_iff, hkind, hrest, hnull, and_comm]
    refine .ite (fun htrue => .pure hc' fun b t => ?_) fun htrue => ?_
    · simp [derivesValue_iff, hkind, hrest, htrue, and_comm]
    refine .ite (fun hfalse => .pure hc' fun b t => ?_) fun hfalse => .pure hc' fun b t => ?_
    · simp [derivesValue_iff, hkind, hrest, hfalse, and_comm]
    · simp [derivesValue_iff, hkind, hrest, hnull, htrue, hfalse, and_assoc, and_comm]
  | ampersand =>
    refine (derives_expectIdent hc').map.congr fun b t => ?_
    simp [derivesValue_iff, hkind, htokens (by simp [hkind])]
  | comma | dot | eof => exact derives_unexpected fun b t => by simp [derivesValue_iff, hkind]
  | _ =>
    refine .pure hc' fun b t => ?_
    simp [derivesValue_iff, hkind, htokens (by simp [hkind]), and_assoc, and_comm]

/-! ## Operands -/

theorem derives_peek {f : Token → ParseM α} (h : Derives (f c.cur) c R) :
    Derives (peek >>= f) c R := h

theorem derives_line {f : Nat → ParseM α} (h : Derives (f c.cur.line) c R) :
    Derives (line >>= f) c R := h

theorem endOperands_tokens : EndOperands c.tokens ↔ c.cur.kind.endsOperands = true := by
  simp [EndOperands]

/-- What the parser looks at to end the operands. -/
theorem endsOperands_eq (k : TokenKind) :
    (match k with
      | .eof => true
      | .ident s => isKeyword s
      | _ => false) = k.endsOperands := by
  cases k <;> rfl

theorem derives_parseOperandList : ∀ (fuel : Nat) {c : Cursor}, c.Ends →
    Derives (parseOperandList u fuel) c fun vs rest => DerivesOperands c.tokens vs rest
  | 0, _, _ => .gives_up rfl
  | fuel + 1, c, hc => by
    rw [parseOperandList]
    refine derives_peek ?_
    refine .ite (fun hend => .pure hc fun vs rest => ?_) fun hend => ?_
    · have hstop := endOperands_tokens.mpr ((endsOperands_eq c.cur.kind).symm.trans hend)
      rw [derivesOperands_iff]
      simp [hstop]
    have hstop : ¬ EndOperands c.tokens := fun h =>
      hend ((endsOperands_eq c.cur.kind).trans (endOperands_tokens.mp h))
    refine ((derives_parseValue hc).bind (S := fun v m vs rest =>
      (∃ m', Heads .comma m m' ∧ ∃ ws, DerivesOperands m' ws rest ∧ vs = v :: ws) ∨
        (∀ behind, ¬ Heads .comma m behind) ∧ vs = [v] ∧ rest = m)
      fun v c₁ hc₁ _ => derives_peek ?_).congr fun vs rest => ?_
    · refine .ite (fun hcomma => ?_) fun hcomma => .pure hc₁ fun vs rest => ?_
      · refine derives_advance hc₁ fun c₂ hc₂ htokens => ?_
        refine (derives_parseOperandList fuel hc₂).map.congr fun vs rest => ?_
        simp [hcomma, htokens (by simp [hcomma])]
      · simp [hcomma]
    · rw [derivesOperands_iff]
      simp only [hstop, false_and, not_false_eq_true, true_and, false_or]
      constructor
      · rintro (⟨v, hv, hcomma, rfl⟩ | ⟨m, m', v, ws, hv, hcomma, hws, rfl⟩)
        · exact ⟨v, rest, hv, .inr ⟨hcomma, rfl, rfl⟩⟩
        · exact ⟨v, m, hv, .inl ⟨m', hcomma, ws, hws, rfl⟩⟩
      · rintro ⟨v, m, hv, ⟨m', hcomma, ws, hws, rfl⟩ | ⟨hcomma, rfl, rfl⟩⟩
        · exact .inr ⟨m, m', v, ws, hv, hcomma, hws, rfl⟩
        · exact .inl ⟨v, hv, hcomma, rfl⟩

/-! ## Statements -/

section Inversion

variable {line : Nat} {kw : String} {ts rest : List Token}

/-- What a statement is by its first word. -/
theorem derivesStatement_iff {stmt : Statement} :
    DerivesStatement (⟨.ident kw, line⟩ :: ts) stmt rest ↔
      if kw = "TRY" then ∃ bodies, DerivesTryBody false ts bodies rest ∧
        stmt = .tryBlock ("__catch_" ++ toString line) ("__endtry_" ++ toString line) bodies.1
          bodies.2 line
      else if kw = "LOCAL" then ∃ index m₁, DerivesU8 ts index m₁ ∧ ∃ (_ : Unit) (m₂ : List Token),
        Heads .comma m₁ m₂ ∧ ∃ type m₃, DerivesType m₂ type m₃ ∧ ∃ (_ : Unit) (m₄ : List Token),
        Heads .comma m₃ m₄ ∧ ∃ name, Heads (.ident name) m₄ rest ∧
        stmt = .local_ ⟨index, type, name, line⟩
      else if kw = "LABEL" then ∃ name, Heads (.ident name) ts rest ∧ stmt = .label name line
      else if kw = "ASYNC" then ∃ next m, Heads (.ident next) ts m ∧
        ∃ ops, DerivesOperands m ops rest ∧ stmt = .instr ⟨"ASYNC_" ++ next, ops, line⟩
      else ∃ ops, DerivesOperands ts ops rest ∧ stmt = .instr ⟨kw, ops, line⟩ := by
  constructor
  · intro h
    cases h with
    | local_ hindex h₁ htype h₂ hname =>
      exact ⟨_, _, hindex, (), _, h₁, _, _, htype, (), _, h₂, _, hname, rfl⟩
    | label hname => exact ⟨_, hname, rfl⟩
    | asyncInstr hnext hops => exact ⟨_, _, hnext, _, hops, rfl⟩
    | instr hkw hops =>
      simp only [List.mem_cons, List.not_mem_nil, or_false, not_or] at hkw
      rw [if_neg hkw.1, if_neg hkw.2.1, if_neg hkw.2.2.1, if_neg hkw.2.2.2]
      exact ⟨_, hops, rfl⟩
    | tryBlock hbodies => exact ⟨_, hbodies, rfl⟩
  · split_ifs with htry hlocal hlabel hasync
    · rintro ⟨bodies, hbodies, rfl⟩
      exact htry ▸ .tryBlock hbodies
    · rintro ⟨index, m₁, hindex, -, m₂, h₁, type, m₃, htype, -, m₄, h₂, name, hname, rfl⟩
      exact hlocal ▸ .local_ hindex h₁ htype h₂ hname
    · rintro ⟨name, hname, rfl⟩
      exact hlabel ▸ .label hname
    · rintro ⟨next, m, hnext, ops, hops, rfl⟩
      exact hasync ▸ .asyncInstr hnext hops
    · rintro ⟨ops, hops, rfl⟩
      exact .instr (by simp [htry, hlocal, hlabel, hasync]) hops

/-- What a `TRY` block goes on with by its first word. -/
theorem derivesTryBody_iff {inCatch : Bool} {k : TokenKind}
    {bodies : List Statement × List Statement} :
    DerivesTryBody inCatch (⟨k, line⟩ :: ts) bodies rest ↔
      if k = .ident "CATCH" then DerivesTryBody true ts bodies rest
      else if k = .ident "ENDTRY" then bodies = ([], []) ∧ rest = ts
      else ∃ stmt m, DerivesStatement (⟨k, line⟩ :: ts) stmt m ∧
        ∃ bodies', DerivesTryBody inCatch m bodies' rest ∧
        bodies = if inCatch then (bodies'.1, stmt :: bodies'.2) else (stmt :: bodies'.1, bodies'.2)
          := by
  constructor
  · intro h
    cases h with
    | catch_ h hbodies =>
      obtain ⟨_, ⟨⟩⟩ := h
      exact hbodies
    | endTry h =>
      obtain ⟨_, ⟨⟩⟩ := h
      exact ⟨rfl, rfl⟩
    | stmt h hkw hstmt hbodies =>
      obtain ⟨_, ⟨⟩⟩ := h
      simp only [List.mem_cons, List.not_mem_nil, or_false, not_or] at hkw
      simp only [TokenKind.ident.injEq, if_neg hkw.1, if_neg hkw.2]
      exact ⟨_, _, hstmt, _, hbodies, rfl⟩
  · by_cases hcatch : k = .ident "CATCH"
    · rw [if_pos hcatch]
      exact fun h => .catch_ ⟨line, hcatch ▸ rfl⟩ h
    by_cases hend : k = .ident "ENDTRY"
    · rw [if_neg hcatch, if_pos hend]
      rintro ⟨rfl, rfl⟩
      exact .endTry ⟨line, hend ▸ rfl⟩
    rw [if_neg hcatch, if_neg hend]
    rintro ⟨stmt, m, hstmt, bodies', hbodies, rfl⟩
    obtain ⟨kw, rfl⟩ : ∃ kw, k = .ident kw := by
      cases hstmt <;> exact ⟨_, rfl⟩
    simp only [TokenKind.ident.injEq] at hcatch hend
    exact .stmt ⟨line, rfl⟩ (by simp [hcatch, hend]) hstmt hbodies

end Inversion

mutual

theorem derives_parseStatement : ∀ (fuel : Nat) {c : Cursor}, c.Ends →
    Derives (parseStatement u fuel) c fun stmt rest => DerivesStatement c.tokens stmt rest
  | 0, _, _ => .gives_up rfl
  | fuel + 1, c, hc => by
    obtain ⟨⟨kind, line⟩, ts⟩ := c
    rw [parseStatement]
    refine derives_line (derives_peek ?_)
    cases kind with
    | ident kw =>
      have htokens : ∀ {c' : Cursor}, (TokenKind.ident kw ≠ .eof → c'.tokens = ts) →
        c'.tokens = ts := fun h => h (by rintro ⟨⟩)
      refine Decides.congr ?_ fun _ _ => derivesStatement_iff
      refine .cond (fun _ => ?_) fun _ => ?_
      · cases fuel with
        | zero => exact .gives_up rfl
        | succ fuel =>
          rw [parseTryBlock]
          refine derives_line ?_
          refine derives_advance hc fun c' hc' hrest => ?_
          exact htokens hrest ▸ (derives_parseTryBody fuel hc').map
      refine .cond (fun _ => ?_) fun _ => ?_
      · refine derives_advance hc fun c₁ hc₁ hrest => ?_
        rw [← htokens hrest]
        refine (derives_parseU8 hc₁).bind fun index c₂ hc₂ _ => ?_
        refine (derives_expectComma hc₂).bind fun _ c₃ hc₃ _ => ?_
        refine (derives_parseType hc₃).bind fun type c₄ hc₄ _ => ?_
        exact (derives_expectComma hc₄).bind fun _ c₅ hc₅ _ => (derives_expectIdent hc₅).map
      refine .cond (fun _ => ?_) fun _ => ?_
      · refine derives_advance hc fun c' hc' hrest => ?_
        exact htokens hrest ▸ (derives_expectIdent hc').map
      refine derives_advance hc fun c₁ hc₁ hrest => ?_
      rw [← htokens hrest]
      refine .cond (fun _ => ?_) fun _ => (derives_parseOperandList fuel hc₁).map
      exact (derives_expectIdent hc₁).bind fun next c₂ hc₂ _ =>
        (derives_parseOperandList fuel hc₂).map
    | _ => exact derives_unexpected fun _ _ h => by cases h

theorem derives_parseTryBody : ∀ (fuel : Nat) {ln : Nat} {inCatch : Bool} {c : Cursor}, c.Ends →
    Derives (parseTryBody u ln inCatch fuel) c fun bodies rest =>
      DerivesTryBody inCatch c.tokens bodies rest
  | 0, _, _, _, _ => .gives_up rfl
  | fuel + 1, ln, inCatch, c, hc => by
    obtain ⟨⟨kind, line⟩, ts⟩ := c
    rw [parseTryBody]
    refine derives_peek ?_
    refine Decides.congr ?_ fun _ _ => derivesTryBody_iff
    refine .ite (fun heof => ?_) fun heof => ?_
    · obtain rfl : kind = .eof := heof
      refine derives_fail fun _ _ h => ?_
      obtain ⟨stmt, m, hstmt, -⟩ := h
      cases hstmt
    refine .cond (fun _ => ?_) fun _ => ?_
    · refine derives_advance hc fun c' hc' hrest => ?_
      obtain rfl : c'.tokens = ts := hrest heof
      exact derives_parseTryBody fuel hc'
    refine .cond (fun _ => ?_) fun _ => ?_
    · refine derives_advance hc fun c' hc' hrest => .pure hc' fun _ _ => ?_
      obtain rfl : c'.tokens = ts := hrest heof
      exact Iff.rfl
    exact (derives_parseStatement fuel hc).bind fun stmt c' hc' _ =>
      (derives_parseTryBody fuel hc').map

end

/-! ## Programs -/

section Inversion

variable {line : Nat} {k : TokenKind} {ts rest : List Token}

theorem derivesParam_iff {param : ParamDecl} :
    DerivesParam (⟨.ident "PARAM", line⟩ :: ts) param rest ↔
      ∃ key m₁, DerivesValue ts key m₁ ∧ ∃ (_ : Unit) (m₂ : List Token), Heads .comma m₁ m₂ ∧
        ∃ type m₃, DerivesType m₂ type m₃ ∧ ∃ (_ : Unit) (m₄ : List Token), Heads .comma m₃ m₄ ∧
        ∃ name m₅, Heads (.ident name) m₄ m₅ ∧ ∃ (_ : Unit) (m₆ : List Token),
        Heads .comma m₅ m₆ ∧ ∃ req m₇, Heads (.ident req) m₆ m₇ ∧
        ∃ required : Bool, req = (if required then "REQUIRED" else "OPTIONAL") ∧
        param = ⟨key, type, name, required, line⟩ ∧ rest = m₇ := by
  constructor
  · rintro ⟨hkey, h₁, htype, h₂, hname, h₃, hrequired⟩
    exact ⟨_, _, hkey, (), _, h₁, _, _, htype, (), _, h₂, _, _, hname, (), _, h₃, _, _,
      hrequired, _, rfl, rfl, rfl⟩
  · rintro ⟨key, m₁, hkey, -, m₂, h₁, type, m₃, htype, -, m₄, h₂, name, m₅, hname, -, m₆, h₃,
      req, m₇, hreq, required, rfl, rfl, rfl⟩
    exact .param hkey h₁ htype h₂ hname h₃ hreq

/-- What a function goes on with by its first word. -/
theorem derivesBody_iff {body : List ParamDecl × List Statement} :
    DerivesBody (⟨k, line⟩ :: ts) body rest ↔
      if k = .ident "ENDF" then body = ([], []) ∧ rest = ts
      else if k = .ident "PARAM" then
        ∃ param m, DerivesParam (⟨k, line⟩ :: ts) param m ∧
        ∃ body', DerivesBody m body' rest ∧ body = (param :: body'.1, body'.2)
      else ∃ stmt m, DerivesStatement (⟨k, line⟩ :: ts) stmt m ∧
        ∃ body', DerivesBody m body' rest ∧ body = (body'.1, stmt :: body'.2) := by
  constructor
  · intro h
    cases h with
    | endf h =>
      obtain ⟨_, ⟨⟩⟩ := h
      exact ⟨rfl, rfl⟩
    | param h hparam hbody =>
      obtain ⟨_, ⟨⟩⟩ := h
      exact ⟨_, _, hparam, _, hbody, rfl⟩
    | stmt h hkw hstmt hbody =>
      obtain ⟨_, ⟨⟩⟩ := h
      simp only [List.mem_cons, List.not_mem_nil, or_false, not_or] at hkw
      simp only [TokenKind.ident.injEq, if_neg hkw.1, if_neg hkw.2]
      exact ⟨_, _, hstmt, _, hbody, rfl⟩
  · split_ifs with hendf hparam
    · rintro ⟨rfl, rfl⟩
      exact .endf ⟨line, hendf ▸ rfl⟩
    · rintro ⟨param, m, hp, body', hbody, rfl⟩
      subst hparam
      exact .param ⟨line, rfl⟩ hp hbody
    · rintro ⟨stmt, m, hstmt, body', hbody, rfl⟩
      obtain ⟨kw, rfl⟩ : ∃ kw, k = .ident kw := by
        cases hstmt <;> exact ⟨_, rfl⟩
      simp only [TokenKind.ident.injEq] at hendf hparam
      exact .stmt ⟨line, rfl⟩ (by simp [hendf, hparam]) hstmt hbody

theorem derivesFunction_iff {func : Function} :
    DerivesFunction (⟨.ident "FUNC", line⟩ :: ts) func rest ↔
      ∃ name m, Heads (.ident name) ts m ∧ ∃ body, DerivesBody m body rest ∧
        func = ⟨name, body.1, body.2, line⟩ := by
  constructor
  · rintro ⟨hname, hbody⟩
    exact ⟨_, _, hname, _, hbody, rfl⟩
  · rintro ⟨name, m, hname, body, hbody, rfl⟩
    exact .func hname hbody

/-- An item of a program by its first word. -/
theorem derivesProgram_iff {kw : String} {prog : ProgramAst} :
    DerivesProgram (⟨.ident kw, line⟩ :: ts) prog rest ↔
      if kw = "DEFINE" then ∃ name m₁, Heads (.ident name) ts m₁ ∧
        ∃ (_ : Unit) (m₂ : List Token), Heads .comma m₁ m₂ ∧ ∃ value m₃, DerivesValue m₂ value m₃ ∧
        ∃ prog', DerivesProgram m₃ prog' rest ∧
        prog = { prog' with defines := ⟨name, value, line⟩ :: prog'.defines }
      else if kw = "IMPORT" then ∃ path m₁, Heads (.stringLit path) ts m₁ ∧
        ∃ word m₂, Heads (.ident word) m₁ m₂ ∧ ∃ alias_ m₃, Heads (.ident alias_) m₂ m₃ ∧
        ∃ prog', DerivesProgram m₃ prog' rest ∧
        prog = { prog' with imports := ⟨path, alias_, line⟩ :: prog'.imports }
      else if kw = "RESERVE" then ∃ index m₁, DerivesU32 ts index m₁ ∧
        ∃ (_ : Unit) (m₂ : List Token), Heads .comma m₁ m₂ ∧ ∃ type m₃, DerivesType m₂ type m₃ ∧
        ∃ (_ : Unit) (m₄ : List Token), Heads .comma m₃ m₄ ∧ ∃ init m₅, DerivesValue m₄ init m₅ ∧
        ∃ prog', DerivesProgram m₅ prog' rest ∧
        prog = { prog' with globalReserves := ⟨index, type, init, line⟩ :: prog'.globalReserves }
      else if kw = "FUNC" then ∃ func m, DerivesFunction (⟨.ident kw, line⟩ :: ts) func m ∧
        ∃ prog', DerivesProgram m prog' rest ∧
        prog = { prog' with functions := func :: prog'.functions }
      else False := by
  constructor
  · intro h
    cases h with
    | eof h => obtain ⟨_, ⟨⟩⟩ := h
    | define hname h₁ hvalue hprog => exact ⟨_, _, hname, (), _, h₁, _, _, hvalue, _, hprog, rfl⟩
    | import_ hpath hword halias hprog =>
      exact ⟨_, _, hpath, _, _, hword, _, _, halias, _, hprog, rfl⟩
    | reserve hindex h₁ htype h₂ hinit hprog =>
      exact ⟨_, _, hindex, (), _, h₁, _, _, htype, (), _, h₂, _, _, hinit, _, hprog, rfl⟩
    | func hfunc hprog => exact ⟨_, _, hfunc, _, hprog, rfl⟩
  · split_ifs with hdefine himport hreserve hfunc
    · rintro ⟨name, m₁, hname, -, m₂, h₁, value, m₃, hvalue, prog', hprog, rfl⟩
      exact hdefine ▸ .define hname h₁ hvalue hprog
    · rintro ⟨path, m₁, hpath, word, m₂, hword, alias_, m₃, halias, prog', hprog, rfl⟩
      exact himport ▸ .import_ hpath hword halias hprog
    · rintro ⟨index, m₁, hindex, -, m₂, h₁, type, m₃, htype, -, m₄, h₂, init, m₅, hinit, prog',
        hprog, rfl⟩
      exact hreserve ▸ .reserve hindex h₁ htype h₂ hinit hprog
    · subst hfunc
      rintro ⟨func, m, hfunc, prog', hprog, rfl⟩
      exact .func hfunc hprog
    · exact False.elim

end Inversion

theorem derives_parseParam (hc : c.Ends) (hcur : c.cur.kind = .ident "PARAM") :
    Derives (parseParam u) c fun param rest => DerivesParam c.tokens param rest := by
  obtain ⟨⟨kind, line⟩, ts⟩ := c
  obtain rfl : kind = .ident "PARAM" := hcur
  rw [parseParam]
  refine derives_line ?_
  refine derives_advance hc fun c₁ hc₁ hrest => ?_
  obtain rfl : c₁.tokens = ts := hrest (by rintro ⟨⟩)
  refine Decides.congr ?_ fun _ _ => derivesParam_iff
  refine (derives_parseValue hc₁).bind fun key c₂ hc₂ _ => ?_
  refine (derives_expectComma hc₂).bind fun _ c₃ hc₃ _ => ?_
  refine (derives_parseType hc₃).bind fun type c₄ hc₄ _ => ?_
  refine (derives_expectComma hc₄).bind fun _ c₅ hc₅ _ => ?_
  refine (derives_expectIdent hc₅).bind fun name c₆ hc₆ _ => ?_
  refine (derives_expectComma hc₆).bind fun _ c₇ hc₇ _ => ?_
  refine (derives_expectIdent hc₇).bind fun req c₈ hc₈ _ => ?_
  refine .ite (fun hreq => .pure hc₈ fun _ _ => ?_) fun hreq => ?_
  · simp [hreq]
  refine .ite (fun hopt => .pure hc₈ fun _ _ => ?_) fun hopt => derives_fail ?_
  · simp [hopt]
  · simp [hreq, hopt]

theorem derives_parseFunctionBody : ∀ (fuel : Nat) {ln : Nat} {name : String} {c : Cursor},
    c.Ends → Derives (parseFunctionBody u ln name fuel) c fun body rest =>
      DerivesBody c.tokens body rest
  | 0, _, _, _, _ => .gives_up rfl
  | fuel + 1, ln, name, c, hc => by
    obtain ⟨⟨kind, line⟩, ts⟩ := c
    rw [parseFunctionBody]
    refine derives_peek ?_
    refine Decides.congr ?_ fun _ _ => derivesBody_iff
    refine .ite (fun heof => ?_) fun heof => ?_
    · obtain rfl : kind = .eof := heof
      refine derives_fail fun _ _ h => ?_
      obtain ⟨stmt, m, hstmt, -⟩ := h
      cases hstmt
    refine .cond (fun _ => ?_) fun _ => ?_
    · refine derives_advance hc fun c' hc' hrest => .pure hc' fun _ _ => ?_
      obtain rfl : c'.tokens = ts := hrest heof
      exact Iff.rfl
    refine .cond (fun hparam => ?_) fun _ => ?_
    · exact (derives_parseParam hc hparam).bind fun param c' hc' _ =>
        (derives_parseFunctionBody fuel hc').map
    · exact (derives_parseStatement fuel hc).bind fun stmt c' hc' _ =>
        (derives_parseFunctionBody fuel hc').map

theorem derives_parseFunction {fuel : Nat} (hc : c.Ends) (hcur : c.cur.kind = .ident "FUNC") :
    Derives (parseFunction u fuel) c fun func rest => DerivesFunction c.tokens func rest := by
  obtain ⟨⟨kind, line⟩, ts⟩ := c
  obtain rfl : kind = .ident "FUNC" := hcur
  rw [parseFunction]
  refine derives_line ?_
  refine derives_advance hc fun c₁ hc₁ hrest => ?_
  obtain rfl : c₁.tokens = ts := hrest (by rintro ⟨⟩)
  refine Decides.congr ?_ fun _ _ => derivesFunction_iff
  exact (derives_expectIdent hc₁).bind fun name c₂ hc₂ _ =>
    (derives_parseFunctionBody fuel hc₂).map

theorem derives_parseProgram : ∀ (fuel : Nat) {c : Cursor}, c.Ends →
    Derives (parseProgram u fuel) c fun prog rest => DerivesProgram c.tokens prog rest
  | 0, _, _ => .gives_up rfl
  | fuel + 1, c, hc => by
    obtain ⟨⟨kind, line⟩, ts⟩ := c
    rw [parseProgram]
    refine derives_line (derives_peek ?_)
    cases kind with
    | eof =>
      refine .pure hc fun prog rest => ⟨fun h => ?_, ?_⟩
      · cases h
        exact ⟨rfl, rfl⟩
      · rintro ⟨rfl, rfl⟩
        exact .eof ⟨line, rfl⟩
    | ident kw =>
      have htokens : ∀ {c' : Cursor}, (TokenKind.ident kw ≠ .eof → c'.tokens = ts) →
        c'.tokens = ts := fun h => h (by rintro ⟨⟩)
      refine Decides.congr ?_ fun _ _ => derivesProgram_iff
      refine .cond (fun _ => ?_) fun _ => ?_
      · refine derives_advance hc fun c₁ hc₁ hrest => ?_
        rw [← htokens hrest]
        refine (derives_expectIdent hc₁).bind fun name c₂ hc₂ _ => ?_
        refine (derives_expectComma hc₂).bind fun _ c₃ hc₃ _ => ?_
        exact (derives_parseValue hc₃).bind fun value c₄ hc₄ _ => (derives_parseProgram fuel hc₄).map
      refine .cond (fun _ => ?_) fun _ => ?_
      · refine derives_advance hc fun c₁ hc₁ hrest => ?_
        rw [← htokens hrest]
        refine (derives_expectString hc₁).bind fun path c₂ hc₂ _ => ?_
        refine (derives_expectIdent hc₂).bind fun _ c₃ hc₃ _ => ?_
        exact (derives_expectIdent hc₃).bind fun alias_ c₄ hc₄ _ =>
          (derives_parseProgram fuel hc₄).map
      refine .cond (fun _ => ?_) fun _ => ?_
      · refine derives_advance hc fun c₁ hc₁ hrest => ?_
        rw [← htokens hrest]
        refine (derives_parseU32 hc₁).bind fun index c₂ hc₂ _ => ?_
        refine (derives_expectComma hc₂).bind fun _ c₃ hc₃ _ => ?_
        refine (derives_parseType hc₃).bind fun type c₄ hc₄ _ => ?_
        refine (derives_expectComma hc₄).bind fun _ c₅ hc₅ _ => ?_
        exact (derives_parseValue hc₅).bind fun init c₆ hc₆ _ => (derives_parseProgram fuel hc₆).map
      refine .cond (fun hfunc => ?_) fun _ => derives_fail fun _ _ h => h
      exact (derives_parseFunction hc (congrArg _ hfunc)).bind fun func c' hc' _ =>
        (derives_parseProgram fuel hc').map
    | _ =>
      refine derives_fail ?_
      rintro _ _ ⟨⟨_, ⟨⟩⟩⟩

end ParseM

/-- The parser returns what the grammar derives. -/
theorem parse_ok_iff (u : Unicode) (init : List Token) (line : Nat) (ast : ProgramAst) :
    parse u (init ++ [⟨.eof, line⟩]) = .ok ast ↔
      ∃ rest, DerivesProgram (init ++ [⟨.eof, line⟩]) ast rest := by
  have hraises := (parse_meets_eof u init line).1
  obtain ⟨t, ts, hcons⟩ : ∃ t ts, init ++ [⟨.eof, line⟩] = t :: ts := by
    cases init with
    | nil => exact ⟨_, [], rfl⟩
    | cons t init => exact ⟨t, _, rfl⟩
  have hends : Cursor.Ends ⟨t, ts⟩ := by
    have hlast := congrArg (fun l => l.getLastD t) hcons
    simp only [List.getLastD_concat, List.getLastD_cons] at hlast
    rw [Cursor.Ends, ← hlast]
  rw [hcons] at hraises ⊢
  -- the fuel is enough: to run out of it is no `Err`
  refine Iff.trans ?_ ((ParseM.derives_parseProgram (u := u) (3 * (ts.length + 1) + 3) hends).ok_iff
    (fun e he => ?_) ast)
  · constructor
    · intro h
      obtain ⟨⟨prog, c⟩, hrun, hast⟩ := bind_eq_ok h
      cases hast
      exact ⟨c, hrun⟩
    · rintro ⟨c, hrun⟩
      exact congrArg (fun r : Except CompileFail (ProgramAst × Cursor) => r.map Prod.fst) hrun
  · rintro rfl
    have herr : parse u (t :: ts) = .error .diverges :=
      congrArg (fun r : Except CompileFail (ProgramAst × Cursor) => r.map Prod.fst) he
    obtain ⟨msg, ⟨⟩⟩ := hraises _ herr

/-- The parser returns a tree if and only if the grammar derives it from the tokens, and an `Err`
if the grammar derives none. -/
theorem parse_iff_derives (u : Unicode) (init : List Token) (line : Nat) :
    (∀ ast, parse u (init ++ [⟨.eof, line⟩]) = .ok ast ↔
      ∃ rest, DerivesProgram (init ++ [⟨.eof, line⟩]) ast rest) ∧
    ((¬ ∃ ast rest, DerivesProgram (init ++ [⟨.eof, line⟩]) ast rest) →
      ∃ msg, parse u (init ++ [⟨.eof, line⟩]) = .error (.error msg)) := by
  refine ⟨parse_ok_iff u init line, fun hnone => ?_⟩
  cases hparse : parse u (init ++ [⟨.eof, line⟩]) with
  | ok ast => exact absurd ⟨ast, (parse_ok_iff u init line ast).mp hparse⟩ hnone
  | error e =>
    obtain ⟨msg, rfl⟩ := (parse_meets_eof u init line).1 e hparse
    exact ⟨msg, rfl⟩

end Fasm
