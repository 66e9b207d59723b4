import Fasm.Compiler.Printer

/-!
# Parsing what is printed

The parser sees no ends of lines.  It knows the end of an instruction by the missing comma behind
its last operand, or without operands by the keyword that the next statement starts with.  So a
printed statement is read up to the next one, whatever that is, and a printed body is read back.
-/

namespace Fasm

/-! ## Statements without their places -/

mutual

/-- A statement without its lines and the labels that are made of them. -/
def Statement.bare : Statement → Statement
  | .local_ decl => .local_ { decl with line := 0 }
  | .label name _ => .label name 0
  | .instr instr => .instr { instr with line := 0 }
  | .tryBlock _ _ body catchBody _ => .tryBlock "" "" (bareBody body) (bareBody catchBody) 0

def bareBody : List Statement → List Statement
  | [] => []
  | stmt :: stmts => stmt.bare :: bareBody stmts

end

/-! ## What starts a statement -/

/-- The next statement starts with a keyword. -/
def StartsKeyword (ls : List Lexeme) : Prop :=
  ∃ kw ls', ls = .word kw :: ls' ∧ isKeyword kw = true

/-- Keywords that end or divide a body, or declare a parameter. -/
def bodyMarks : List String := ["CATCH", "ENDTRY", "ENDF", "PARAM"]

theorem not_mem_mnemonics : ∀ kw ∈ "TRY" :: "LOCAL" :: "LABEL" :: "ASYNC" :: bodyMarks,
    kw ∉ mnemonics := by
  decide

theorem Statement.exists_lexemes {u : Unicode} {stmt : Statement} (h : stmt.Printable u) :
    ∃ kw ls, stmt.lexemes = .word kw :: ls ∧ isKeyword kw = true ∧ kw ∉ bodyMarks := by
  cases stmt with
  | local_ decl => exact ⟨"LOCAL", _, rfl, by decide, by decide⟩
  | label name line => exact ⟨"LABEL", _, rfl, by decide, by decide⟩
  | tryBlock catchLabel endLabel body catchBody line =>
    exact ⟨"TRY", _, by rw [Statement.lexemes]; rfl, by decide, by decide⟩
  | instr instr =>
    have hm : instr.mnemonic ∈ mnemonics := h.1
    rw [Statement.lexemes, lexemesOfMnemonic]
    split
    case h_1 word hlookup => exact ⟨"ASYNC", _, rfl, by decide, by decide⟩
    case h_2 hnone =>
      refine ⟨instr.mnemonic, _, rfl, isKeyword_of_mem_mnemonics hm hnone, fun hmark => ?_⟩
      exact not_mem_mnemonics _ (by simp [hmark]) hm

theorem startsKeyword_append {u : Unicode} {stmts : List Statement} (h : PrintableBody u stmts)
    {kw : String} (hkw : isKeyword kw = true) (rest : List Lexeme) :
    StartsKeyword (lexemesOfBody stmts ++ .word kw :: rest) := by
  cases stmts with
  | nil => exact ⟨kw, rest, rfl, hkw⟩
  | cons stmt stmts =>
    obtain ⟨kw', ls, hls, hkw', -⟩ := stmt.exists_lexemes h.1
    rw [lexemesOfBody, hls]
    exact ⟨kw', _, rfl, hkw'⟩

/-! ## Reading -/

namespace ParseM

variable {u : Unicode} {α β : Type} {c : Cursor} {rest : List Lexeme}
  {P : α → Prop} {R : β → Prop}

/-- From `c` the parser reads up to `rest` with a result in `P`, as far as the fuel goes. -/
def Yields (x : ParseM α) (c : Cursor) (rest : List Lexeme) (P : α → Prop) : Prop :=
  Meets (· = .diverges) x c fun a c' => c'.At rest ∧ P a

namespace Yields

theorem pure {a : α} (hc : c.At rest) (h : P a) : Yields (pure a) c rest P := ⟨hc, h⟩

theorem diverges : Yields (throw .diverges) c rest P := rfl

theorem bind {mid : List Lexeme} {x : ParseM α} {f : α → ParseM β} (hx : Yields x c mid P)
    (hf : ∀ a c', c'.At mid → P a → Yields (f a) c' rest R) : Yields (x >>= f) c rest R :=
  Meets.bind hx fun a c' h => hf a c' h.1 h.2

theorem mono {P' : α → Prop} {x : ParseM α} (h : Yields x c rest P) (hP : ∀ a, P a → P' a) :
    Yields x c rest P' := Meets.mono h fun a _ hQ => ⟨hQ.1, hP a hQ.2⟩

theorem peek {f : Token → ParseM β} (hf : Yields (f c.cur) c rest R) :
    Yields (peek >>= f) c rest R := hf

theorem line {f : Nat → ParseM β} (hf : ∀ ln, Yields (f ln) c rest R) :
    Yields (line >>= f) c rest R := hf _

end Yields

theorem yields_advance {x : Lexeme} (hc : c.At (x :: rest)) :
    Yields advance c rest fun t => t.kind = x.kind := by
  obtain ⟨t, ts, hts, hat⟩ := hc.rest_eq
  obtain ⟨cur, tokens⟩ := c
  obtain rfl : tokens = t :: ts := hts
  exact ⟨hat, hc.kind_eq⟩

theorem yields_expectIdent {s : String} (hc : c.At (.word s :: rest)) :
    Yields (expectIdent u) c rest (· = s) := by
  refine (yields_advance hc).bind fun t c' hc' ht => ?_
  rw [show t.kind = .ident s from ht]
  exact .pure hc' rfl

theorem yields_expectComma (hc : c.At (.comma :: rest)) :
    Yields (expectComma u) c rest fun _ => True := by
  refine (yields_advance hc).bind fun t c' hc' ht => ?_
  rw [if_pos (show t.kind = .comma from ht)]
  exact .pure hc' trivial

theorem yields_parseType {t : FasmType} (ht : t ≠ .null) (hc : c.At (.word t.word :: rest)) :
    Yields (parseType u) c rest (· = t) := by
  refine (yields_advance hc).bind fun tok c' hc' htok => ?_
  rw [show tok.kind = .ident t.word from htok]
  simp only [(FasmType.parse_word ht).1]
  exact .pure hc' rfl

theorem yields_parseU8 {index : U8} (hc : c.At (.number (.ofIndex index) :: rest)) :
    Yields (parseU8 u) c rest (· = index) := by
  have hlt : index.toNat < 256 := index.isLt
  have hnonneg : 0 ≤ (index.setWidth 64).toInt := by
    rw [BitVec.toInt_eq_toNat_of_lt (by simp only [BitVec.toNat_setWidth]; omega)]
    exact Int.natCast_nonneg _
  have hu32 : Yields (parseU32 u) c rest (· = index.setWidth 32) := by
    refine (yields_advance hc).bind fun t c' hc' ht => ?_
    rw [show t.kind = .integer (index.setWidth 64) from ht]
    simp only [if_pos hnonneg]
    exact .pure hc' (BitVec.setWidth_setWidth_of_le _ (by decide))
  refine hu32.bind ?_
  rintro _ c' hc' rfl
  rw [if_neg (by simp only [BitVec.toNat_setWidth]; omega)]
  exact .pure hc' ((BitVec.setWidth_setWidth_of_le _ (by decide)).trans (BitVec.setWidth_eq _))

/-- A value is read back. -/
theorem yields_parseValue {v : AstValue} (h : v.Printable u) (hc : c.At (v.lexemes ++ rest)) :
    Yields (parseValue u) c rest (· = v) := by
  rw [parseValue]
  cases v with
  | ident s =>
    refine (yields_advance hc).bind fun t c' hc' ht => ?_
    rw [show t.kind = .ident s from ht]
    have hne := h.2.2
    simp only [List.mem_cons, List.not_mem_nil, or_false, not_or] at hne
    simp only [if_neg hne.1, if_neg hne.2.1, if_neg hne.2.2]
    exact .pure hc' rfl
  | float bits => exact h.elim
  | deref name =>
    refine (yields_advance hc).bind fun t c' hc' ht => ?_
    rw [show t.kind = .ampersand from ht]
    refine (yields_expectIdent hc').bind ?_
    rintro _ c'' hc'' rfl
    exact .pure hc'' rfl
  | _ =>
    -- one token, of which the value is made
    refine (yields_advance hc).bind fun t c' hc' ht => ?_
    obtain ⟨kind, line⟩ := t
    obtain rfl : kind = _ := ht
    exact .pure hc' rfl

/-- The first token of a value does not end a list of operands. -/
theorem operand_goes_on {v : AstValue} (h : v.Printable u) (hc : c.At (v.lexemes ++ rest)) :
    (match c.cur.kind with
      | .eof => true
      | .ident s => isKeyword s
      | _ => false) = false := by
  obtain ⟨⟨kind, line⟩, tokens⟩ := c
  cases v with
  | ident s =>
    obtain rfl : kind = .ident s := hc.kind_eq
    exact h.2.1
  | float bits => exact h.elim
  | null =>
    obtain rfl : kind = .ident "NULL" := hc.kind_eq
    exact (by decide : isKeyword "NULL" = false)
  | true_ =>
    obtain rfl : kind = .ident "TRUE" := hc.kind_eq
    exact (by decide : isKeyword "TRUE" = false)
  | false_ =>
    obtain rfl : kind = .ident "FALSE" := hc.kind_eq
    exact (by decide : isKeyword "FALSE" = false)
  | _ =>
    obtain rfl : kind = _ := hc.kind_eq
    rfl

/-- Operands are read back, as far as commas follow them. -/
theorem yields_operands : ∀ (fuel : Nat) {c : Cursor} {v : AstValue} {vs : List AstValue},
    v.Printable u → (∀ w ∈ vs, w.Printable u) →
    c.At (v.lexemes ++ (vs.flatMap fun w => .comma :: w.lexemes) ++ rest) → StartsKeyword rest →
    Yields (parseOperandList u fuel) c rest (· = v :: vs)
  | 0, _, _, _, _, _, _, _ => .diverges
  | fuel + 1, c, v, vs, hv, hvs, hc, hrest => by
    rw [List.append_assoc] at hc
    rw [parseOperandList]
    refine .peek ?_
    refine Meets.ite (fun hstop => ?_) fun _ => ?_
    · exact absurd hstop (Bool.eq_false_iff.mp (operand_goes_on hv hc))
    refine (yields_parseValue hv hc).bind ?_
    rintro _ c₁ hc₁ rfl
    refine .peek ?_
    cases vs with
    | nil =>
      -- the next statement starts with a keyword, not with a comma
      obtain ⟨kw, ls, rfl, -⟩ := hrest
      have hne : ¬ c₁.cur.kind = .comma := by
        rw [hc₁.kind_eq]
        rintro ⟨⟩
      rw [if_neg hne]
      exact .pure hc₁ rfl
    | cons w vs =>
      obtain ⟨hw, hvs⟩ := List.forall_mem_cons.mp hvs
      rw [if_pos (show c₁.cur.kind = .comma from hc₁.kind_eq)]
      refine (yields_advance hc₁).bind fun t c₂ hc₂ _ => ?_
      refine (yields_operands fuel hw hvs hc₂ hrest).bind ?_
      rintro _ c₃ hc₃ rfl
      exact .pure hc₃ rfl

/-- The operands of an instruction are read back, and nothing of the next statement. -/
theorem yields_parseOperandList {fuel : Nat} {vs : List AstValue} (hvs : ∀ v ∈ vs, v.Printable u)
    (hc : c.At (lexemesOfOperands vs ++ rest)) (hrest : StartsKeyword rest) :
    Yields (parseOperandList u fuel) c rest (· = vs) := by
  cases vs with
  | cons v vs =>
    obtain ⟨hv, hvs⟩ := List.forall_mem_cons.mp hvs
    exact yields_operands fuel hv hvs hc hrest
  | nil =>
    cases fuel with
    | zero => exact .diverges
    | succ fuel =>
      obtain ⟨kw, ls, rfl, hkw⟩ := hrest
      have hcur : c.cur.kind = .ident kw := hc.kind_eq
      rw [parseOperandList]
      refine .peek ?_
      rw [hcur]
      simp only [if_pos hkw]
      exact .pure hc rfl

/-! ## Statements -/

variable (u) in
/-- Wherever it stands the statement is read back, up to the next one. -/
def ReadsBack (stmt : Statement) : Prop := ∀ (fuel : Nat) {c : Cursor} {rest : List Lexeme},
  c.At (stmt.lexemes ++ rest) → StartsKeyword rest →
    Yields (parseStatement u fuel) c rest fun stmt' => stmt'.bare = stmt.bare

theorem readsBack_local {decl : LocalDecl} (htype : decl.fasmType ≠ .null) :
    ReadsBack u (.local_ decl)
  | 0, _, _, _, _ => .diverges
  | fuel + 1, c, rest, hc, _ => by
    have hcur : c.cur.kind = .ident "LOCAL" := hc.kind_eq
    rw [parseStatement]
    refine .line fun ln => .peek ?_
    rw [hcur]
    refine (yields_advance hc).bind fun _ c₁ hc₁ _ => ?_
    refine (yields_parseU8 hc₁).bind ?_
    rintro _ c₂ hc₂ rfl
    refine (yields_expectComma hc₂).bind fun _ c₃ hc₃ _ => ?_
    refine (yields_parseType htype hc₃).bind ?_
    rintro _ c₄ hc₄ rfl
    refine (yields_expectComma hc₄).bind fun _ c₅ hc₅ _ => ?_
    refine (yields_expectIdent hc₅).bind ?_
    rintro _ c₆ hc₆ rfl
    exact .pure hc₆ rfl

theorem readsBack_label (name : String) (line : Nat) : ReadsBack u (.label name line)
  | 0, _, _, _, _ => .diverges
  | fuel + 1, c, rest, hc, _ => by
    have hcur : c.cur.kind = .ident "LABEL" := hc.kind_eq
    rw [parseStatement]
    refine .line fun ln => .peek ?_
    rw [hcur]
    refine (yields_advance hc).bind fun _ c₁ hc₁ _ => ?_
    refine (yields_expectIdent hc₁).bind ?_
    rintro _ c₂ hc₂ rfl
    exact .pure hc₂ rfl

/-- An instruction is read back with the mnemonic that it is printed with. -/
theorem readsBack_instr {instr : Instr} (hm : instr.mnemonic ∈ mnemonics)
    (hvs : ∀ v ∈ instr.operands, v.Printable u) : ReadsBack u (.instr instr)
  | 0, _, _, _, _ => .diverges
  | fuel + 1, c, rest, hc, hrest => by
    rw [Statement.lexemes, List.append_assoc, lexemesOfMnemonic] at hc
    rw [parseStatement]
    refine .line fun ln => .peek ?_
    split at hc
    case h_1 word hlookup =>
      have hname : "ASYNC_" ++ word = instr.mnemonic := by
        have hall : ∀ p ∈ asyncForms, "ASYNC_" ++ p.2 = p.1 := by decide
        exact hall _ (mem_of_lookup hlookup)
      have hcur : c.cur.kind = .ident "ASYNC" := hc.kind_eq
      rw [hcur]
      refine (yields_advance hc).bind fun _ c₁ hc₁ _ => ?_
      refine (yields_expectIdent hc₁).bind ?_
      rintro _ c₂ hc₂ rfl
      refine (yields_parseOperandList hvs hc₂ hrest).bind ?_
      rintro _ c₃ hc₃ rfl
      refine .pure hc₃ ?_
      simp only [hname, Statement.bare]
    case h_2 hnone =>
      have hne (kw : String) (hkw : kw ∈ ["TRY", "LOCAL", "LABEL", "ASYNC"]) :
          instr.mnemonic ≠ kw := by
        rintro rfl
        exact not_mem_mnemonics _ (List.mem_append_left bodyMarks hkw) hm
      have hcur : c.cur.kind = .ident instr.mnemonic := hc.kind_eq
      rw [hcur]
      simp only [if_neg (hne "TRY" (by decide)), if_neg (hne "LOCAL" (by decide)),
        if_neg (hne "LABEL" (by decide)), if_neg (hne "ASYNC" (by decide))]
      refine (yields_advance hc).bind fun _ c₁ hc₁ _ => ?_
      refine (yields_parseOperandList hvs hc₁ hrest).bind ?_
      rintro _ c₂ hc₂ rfl
      exact .pure hc₂ rfl

/-! ## Bodies -/

section Body

variable {ln : Nat} {stmts : List Statement}

/-- What stands in front of a statement of a body is none of the marks. -/
theorem kind_ne_mark {stmt : Statement} (h : stmt.Printable u) (hc : c.At (stmt.lexemes ++ rest)) :
    c.cur.kind ≠ .eof ∧ ∀ kw ∈ bodyMarks, c.cur.kind ≠ .ident kw := by
  obtain ⟨kw, ls, hls, -, hkw⟩ := stmt.exists_lexemes h
  rw [hls] at hc
  have hcur : c.cur.kind = .ident kw := hc.kind_eq
  rw [hcur]
  refine ⟨by rintro ⟨⟩, ?_⟩
  rintro _ hmark ⟨⟩
  exact hkw hmark

/-- The statements of one side of a `TRY` block are read back, up to what ends the side. -/
theorem yields_tryStatements {inCatch : Bool} {tail : List Lexeme}
    {Q : List Statement × List Statement → Prop} (htail : StartsKeyword tail)
    (hend : ∀ (fuel : Nat) {c : Cursor}, c.At tail →
      Yields (parseTryBody u ln inCatch fuel) c rest Q) :
    ∀ (fuel : Nat) {c : Cursor} {stmts : List Statement}, PrintableBody u stmts →
    (∀ stmt ∈ stmts, ReadsBack u stmt) → c.At (lexemesOfBody stmts ++ tail) →
    Yields (parseTryBody u ln inCatch fuel) c rest fun r => ∃ stmts' r',
      bareBody stmts' = bareBody stmts ∧ Q r' ∧
        r = if inCatch then (r'.1, stmts' ++ r'.2) else (stmts' ++ r'.1, r'.2)
  | fuel, c, [], _, _, hc => by
    refine (hend fuel hc).mono fun r hr => ⟨[], r, rfl, hr, ?_⟩
    cases inCatch <;> rfl
  | 0, _, _ :: _, _, _, _ => .diverges
  | fuel + 1, c, stmt :: stmts, hprint, hread, hc => by
    rw [lexemesOfBody, List.append_assoc] at hc
    obtain ⟨heof, hmarks⟩ := kind_ne_mark hprint.1 hc
    obtain ⟨hstmt, hstmts⟩ := List.forall_mem_cons.mp hread
    obtain ⟨kw, ls, rfl, hkw⟩ := htail
    rw [parseTryBody]
    refine .peek ?_
    rw [if_neg heof, if_neg (hmarks _ (by decide)), if_neg (hmarks _ (by decide))]
    refine (hstmt fuel hc (startsKeyword_append hprint.2 hkw ls)).bind ?_
    intro stmt' c₁ hc₁ hbare
    refine (yields_tryStatements ⟨kw, ls, rfl, hkw⟩ hend fuel hprint.2 hstmts hc₁).bind ?_
    rintro _ c₂ hc₂ ⟨stmts', r', hbody, hr', rfl⟩
    refine .pure hc₂ ⟨stmt' :: stmts', r', congrArg₂ List.cons hbare hbody, hr', ?_⟩
    cases inCatch <;> rfl

/-- The statements behind `CATCH`. -/
theorem yields_catchBody {fuel : Nat} (hprint : PrintableBody u stmts)
    (hread : ∀ stmt ∈ stmts, ReadsBack u stmt)
    (hc : c.At (lexemesOfBody stmts ++ .word "ENDTRY" :: rest)) :
    Yields (parseTryBody u ln true fuel) c rest fun r =>
      r.1 = [] ∧ bareBody r.2 = bareBody stmts := by
  have hend (fuel : Nat) {c : Cursor} (hc : c.At (.word "ENDTRY" :: rest)) :
      Yields (parseTryBody u ln true fuel) c rest (· = ([], [])) := by
    cases fuel with
    | zero => exact .diverges
    | succ fuel =>
      have hcur : c.cur.kind = .ident "ENDTRY" := hc.kind_eq
      rw [parseTryBody]
      refine .peek ?_
      rw [hcur]
      exact (yields_advance hc).bind fun _ c₁ hc₁ _ => .pure hc₁ rfl
  refine (yields_tryStatements ⟨_, _, rfl, by decide⟩ hend fuel hprint hread hc).mono ?_
  rintro _ ⟨stmts', _, hbody, rfl, rfl⟩
  exact ⟨rfl, by rw [if_pos rfl, List.append_nil, hbody]⟩

/-- The statements up to `CATCH`, and those behind it. -/
theorem yields_tryBody {catchBody : List Statement} {fuel : Nat} (hprint : PrintableBody u stmts)
    (hread : ∀ stmt ∈ stmts, ReadsBack u stmt) (hcatch : PrintableBody u catchBody)
    (hcatchRead : ∀ stmt ∈ catchBody, ReadsBack u stmt)
    (hc : c.At (lexemesOfBody stmts ++
      .word "CATCH" :: (lexemesOfBody catchBody ++ .word "ENDTRY" :: rest))) :
    Yields (parseTryBody u ln false fuel) c rest fun r =>
      bareBody r.1 = bareBody stmts ∧ bareBody r.2 = bareBody catchBody := by
  have hend (fuel : Nat) {c : Cursor}
      (hc : c.At (.word "CATCH" :: (lexemesOfBody catchBody ++ .word "ENDTRY" :: rest))) :
      Yields (parseTryBody u ln false fuel) c rest fun r =>
        r.1 = [] ∧ bareBody r.2 = bareBody catchBody := by
    cases fuel with
    | zero => exact .diverges
    | succ fuel =>
      have hcur : c.cur.kind = .ident "CATCH" := hc.kind_eq
      rw [parseTryBody]
      refine .peek ?_
      rw [hcur]
      exact (yields_advance hc).bind fun _ c₁ hc₁ _ => yields_catchBody hcatch hcatchRead hc₁
  refine (yields_tryStatements ⟨_, _, rfl, by decide⟩ hend fuel hprint hread hc).mono ?_
  rintro _ ⟨stmts', r', hbody, ⟨hnil, hcatchBody⟩, rfl⟩
  refine ⟨?_, hcatchBody⟩
  rw [if_neg Bool.false_ne_true, hnil, List.append_nil, hbody]

/-- The statements up to the end of a function. -/
theorem yields_functionBody {name : String} : ∀ (fuel : Nat) {c : Cursor} {stmts : List Statement},
    PrintableBody u stmts → (∀ stmt ∈ stmts, ReadsBack u stmt) →
    c.At (lexemesOfBody stmts ++ .word "ENDF" :: rest) →
    Yields (parseFunctionBody u ln name fuel) c rest fun r =>
      r.1 = [] ∧ bareBody r.2 = bareBody stmts
  | 0, _, _, _, _, _ => .diverges
  | fuel + 1, c, [], _, _, hc => by
    have hcur : c.cur.kind = .ident "ENDF" := hc.kind_eq
    rw [parseFunctionBody]
    refine .peek ?_
    rw [hcur]
    refine (yields_advance hc).bind fun _ c₁ hc₁ _ => ?_
    exact .pure hc₁ ⟨rfl, rfl⟩
  | fuel + 1, c, stmt :: stmts, hprint, hread, hc => by
    rw [lexemesOfBody, List.append_assoc] at hc
    obtain ⟨heof, hmarks⟩ := kind_ne_mark hprint.1 hc
    obtain ⟨hstmt, hstmts⟩ := List.forall_mem_cons.mp hread
    rw [parseFunctionBody]
    refine .peek ?_
    rw [if_neg heof, if_neg (hmarks _ (by decide)), if_neg (hmarks _ (by decide))]
    refine (hstmt fuel hc (startsKeyword_append hprint.2 (by decide) rest)).bind ?_
    intro stmt' c₁ hc₁ hbare
    refine (yields_functionBody fuel hprint.2 hstmts hc₁).bind ?_
    rintro ⟨_, stmts'⟩ c₂ hc₂ ⟨rfl, hbody⟩
    exact .pure hc₂ ⟨rfl, congrArg₂ List.cons hbare hbody⟩

end Body

theorem readsBack_tryBlock {catchLabel endLabel : String} {body catchBody : List Statement}
    {line : Nat} (hbody : PrintableBody u body) (hbodyRead : ∀ stmt ∈ body, ReadsBack u stmt)
    (hcatch : PrintableBody u catchBody) (hcatchRead : ∀ stmt ∈ catchBody, ReadsBack u stmt) :
    ReadsBack u (.tryBlock catchLabel endLabel body catchBody line)
  | 0, _, _, _, _ => .diverges
  | fuel + 1, c, rest, hc, _ => by
    have hcur : c.cur.kind = .ident "TRY" := hc.kind_eq
    simp only [Statement.lexemes, List.append_assoc, List.cons_append, List.nil_append] at hc
    rw [parseStatement]
    refine .line fun ln => .peek ?_
    rw [hcur]
    simp only [if_pos]
    cases fuel with
    | zero => exact .diverges
    | succ fuel =>
      rw [parseTryBlock]
      refine .line fun ln => ?_
      refine (yields_advance hc).bind fun _ c₁ hc₁ _ => ?_
      refine (yields_tryBody hbody hbodyRead hcatch hcatchRead hc₁).bind ?_
      rintro ⟨body', catchBody'⟩ c₂ hc₂ ⟨hbare, hcatchBare⟩
      refine .pure hc₂ ?_
      simp only [Statement.bare, hbare, hcatchBare]

mutual

theorem readsBack : ∀ stmt : Statement, stmt.Printable u → ReadsBack u stmt
  | .local_ _, h => readsBack_local h.1
  | .label name line, _ => readsBack_label name line
  | .instr _, h => readsBack_instr h.1 h.2
  | .tryBlock _ _ body catchBody _, h => readsBack_tryBlock h.1 (readsBack_body body h.1) h.2
      (readsBack_body catchBody h.2)

theorem readsBack_body : ∀ stmts : List Statement, PrintableBody u stmts →
    ∀ stmt ∈ stmts, ReadsBack u stmt
  | [], _ => nofun
  | stmt :: stmts, h => List.forall_mem_cons.mpr ⟨readsBack stmt h.1, readsBack_body stmts h.2⟩

end

/-! ## Programs -/

/-- A program of one function. -/
theorem yields_parseProgram {name : String} {body : List Statement} (hbody : PrintableBody u body)
    (fuel : Nat) (hc : c.At (.word "FUNC" :: .word name :: lexemesOfBody body ++ [.word "ENDF"])) :
    Yields (parseProgram u fuel) c [] fun prog => ∃ f : Function, prog = ⟨[], [], [], [f]⟩ ∧
      f.name = name ∧ f.params = [] ∧ bareBody f.body = bareBody body := by
  cases fuel with
  | zero => exact .diverges
  | succ fuel =>
    have hcur : c.cur.kind = .ident "FUNC" := hc.kind_eq
    have hfunc : Yields (parseFunction u fuel) c [] fun f =>
        f.name = name ∧ f.params = [] ∧ bareBody f.body = bareBody body := by
      rw [parseFunction]
      refine .line fun ln => ?_
      refine (yields_advance hc).bind fun _ c₁ hc₁ _ => ?_
      refine (yields_expectIdent hc₁).bind ?_
      rintro _ c₂ hc₂ rfl
      refine (yields_functionBody fuel hbody (readsBack_body body hbody) hc₂).bind ?_
      rintro ⟨params, body'⟩ c₃ hc₃ ⟨hparams, hbare⟩
      exact .pure hc₃ ⟨rfl, hparams, hbare⟩
    have hend (fuel : Nat) {c : Cursor} (hc : c.At []) :
        Yields (parseProgram u fuel) c [] (· = ⟨[], [], [], []⟩) := by
      cases fuel with
      | zero => exact .diverges
      | succ fuel =>
        rw [parseProgram]
        refine .line fun ln => .peek ?_
        rw [hc.eof]
        exact .pure hc rfl
    rw [parseProgram]
    refine .line fun ln => .peek ?_
    rw [hcur]
    refine hfunc.bind fun f c₁ hc₁ hf => ?_
    refine (hend fuel hc₁).bind ?_
    rintro _ c₂ hc₂ rfl
    exact .pure hc₂ ⟨f, rfl, hf⟩

end ParseM

/-- **The parser inverts printing**: a printed function is tokenized and parsed to a program of
that function alone, with the same statements up to their lines and the labels of `TRY` blocks. -/
theorem parse_printFunction {u : Unicode} {name : String} {body : List Statement}
    (hname : IsIdent u name) (hbody : PrintableBody u body) :
    ∃ tokens f, tokenize u (printFunction name body) = .ok tokens ∧
      parse u tokens = .ok ⟨[], [], [], [f]⟩ ∧ f.name = name ∧ f.params = [] ∧
        bareBody f.body = bareBody body := by
  obtain ⟨tokens, hlex, hkinds⟩ := (scans_printFunction hname hbody).lexesTo
    ((printFunction name body).toList.length + 1) 1 (Nat.lt_succ_self _)
  have htokens : tokenize u (printFunction name body) = .ok tokens := hlex
  have hraises := (parse_meets htokens).1
  cases tokens with
  | nil => cases hkinds
  | cons t rest =>
    have hprog := ParseM.yields_parseProgram hbody (3 * (rest.length + 1) + 3)
      (show Cursor.At ⟨t, rest⟩ _ from hkinds)
    rw [ParseM.Yields, Meets] at hprog
    cases hrun : ParseM.parseProgram u (3 * (rest.length + 1) + 3) ⟨t, rest⟩ with
    | error e =>
      -- the fuel of `parse` lasts
      rw [hrun] at hprog
      obtain rfl : e = .diverges := hprog
      have hparse : parse u (t :: rest) = .error .diverges := by
        rw [parse, StateT.run, hrun]
        rfl
      obtain ⟨msg, hmsg⟩ := hraises _ hparse
      cases hmsg
    | ok r =>
      rw [hrun] at hprog
      obtain ⟨-, f, hf, hname, hparams, hbare⟩ := hprog
      refine ⟨t :: rest, f, htokens, ?_, hname, hparams, hbare⟩
      rw [parse, StateT.run, hrun, ← hf]
      rfl

/-- Operands that are missing in front of a keyword, and a block within a block. -/
def nestedBody : List Statement :=
  [.local_ ⟨3, .int .int32, "x", 0⟩,
    .tryBlock "" "" [.instr ⟨"ASYNC_CALL", [.ident "G", .ident "$args"], 0⟩, .instr ⟨"RET", [], 0⟩,
      .tryBlock "" "" [] [.instr ⟨"ADD", [.integer (-5), .hexInt 0xFF, .deref "x"], 0⟩] 0]
      [.instr ⟨"TMP_BLOCK", [], 0⟩] 0,
    .instr ⟨"MOV", [.str "a\"b", .ident "x"], 0⟩]

example : printFunction "F" nestedBody = String.join ["FUNC F\n", "LOCAL 3, INT32, x\n", "TRY\n",
    "ASYNC CALL G, $args\n", "RET\n", "TRY\n", "CATCH\n", "ADD -5, 0xff, &x\n", "ENDTRY\n",
    "CATCH\n", "TMP_BLOCK\n", "ENDTRY\n", "MOV \"a\\\"b\", x\n", "ENDF\n"] := by
  decide +kernel

theorem parse_printFunction_nested : IsIdent .ascii "F" ∧ PrintableBody .ascii nestedBody ∧
    ∃ tokens f, tokenize .ascii (printFunction "F" nestedBody) = .ok tokens ∧
      parse .ascii tokens = .ok ⟨[], [], [], [f]⟩ ∧ f.name = "F" ∧ f.params = [] ∧
        bareBody f.body = bareBody nestedBody := by
  have hword (s : String) (hs : asciiWord s = true) : IsIdent .ascii s := .of_asciiWord hs
  have hx := hword "x" (by decide)
  have hargs : IsIdent .ascii "$args" :=
    ⟨'$', ['a', 'r', 'g', 's'], by decide, by decide, List.all_eq_true.mp (by decide)⟩
  have hbody : PrintableBody .ascii nestedBody := by
    simp only [nestedBody, PrintableBody, Statement.Printable, List.forall_mem_cons, and_true]
    have hG : AstValue.Printable .ascii (.ident "G") :=
      ⟨hword "G" (by decide), by decide, by decide⟩
    have hA : AstValue.Printable .ascii (.ident "$args") := ⟨hargs, by decide, by decide⟩
    have hX : AstValue.Printable .ascii (.ident "x") := ⟨hx, by decide, by decide⟩
    refine ⟨⟨nofun, hx⟩, ⟨⟨?_, ?_, ?_⟩, ?_⟩, ?_⟩
    · exact ⟨by decide, hG, hA, fun _ h => absurd h List.not_mem_nil⟩
    · exact ⟨by decide, fun _ h => absurd h List.not_mem_nil⟩
    · exact ⟨trivial, by decide, trivial, trivial, hx, fun _ h => absurd h List.not_mem_nil⟩
    · exact ⟨by decide, fun _ h => absurd h List.not_mem_nil⟩
    · exact ⟨by decide, trivial, hX, fun _ h => absurd h List.not_mem_nil⟩
  exact ⟨hword "F" (by decide), hbody, parse_printFunction (hword "F" (by decide)) hbody⟩

end Fasm
