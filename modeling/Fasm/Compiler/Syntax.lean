import Fasm.Compiler.Lexemes

/-!
# Syntax trees of sources

Trees that keep what the lexemes of a source say: the numbers as they are written, and the
items in their order.  The tree that the parser returns is what such a tree of the
lexemes it has read is taken for.
-/

namespace Fasm

/-! ## Trees -/

/-- A type by its name. -/
structure TypeName where
  name : String
  type : FasmType
  parsed : parseFasmType name = some type

/-- An operand expression as it is written. -/
inductive SourceValue where
  | number (l : Literal)
  | word (s : String)
  | float (bits : U64)
  | str (s : String)
  | deref (name : String)

namespace SourceValue

def lexemes : SourceValue → List Lexeme
  | .number l => [.number l]
  | .word s => [.word s]
  | .float bits => [.other (.float bits) rfl]
  | .str s => [.other (.stringLit s) rfl]
  | .deref name => [.other .ampersand rfl, .word name]

def ast : SourceValue → AstValue
  | .number l => l.ast
  | .word s =>
    if s = "NULL" then .null
    else if s = "TRUE" then .true_
    else if s = "FALSE" then .false_
    else .ident s
  | .float bits => .float bits
  | .str s => .str s
  | .deref name => .deref name

end SourceValue

/-- An instruction as it is written: its operands, with a comma after them or not. -/
structure SourceInstr where
  isAsync : Bool
  keyword : String
  operands : List (SourceValue × Bool)
  line : Nat

/-- The text of operands. -/
def operandLexemes (ops : List (SourceValue × Bool)) : List Lexeme :=
  ops.flatMap fun op => op.1.lexemes ++ if op.2 then [.comma] else []

namespace SourceInstr

def lexemes (i : SourceInstr) : List Lexeme :=
  (if i.isAsync then [.word "ASYNC"] else []) ++ .word i.keyword :: operandLexemes i.operands

def ast (i : SourceInstr) : Instr :=
  ⟨if i.isAsync then "ASYNC_" ++ i.keyword else i.keyword, i.operands.map (·.1.ast), i.line⟩

end SourceInstr

/-- The slot of a `LOCAL`. -/
def Literal.slot (l : Literal) : U8 := (l.bits.setWidth 32).setWidth 8

/-- A statement as it is written.  A `PARAM` stands among the statements of a function only, a
`CATCH` behind the first one among those of a `TRY` block. -/
inductive SourceStatement where
  | param (key : SourceValue) (type : TypeName) (name : String) (required : Bool) (line : Nat)
  | local_ (index : Literal) (type : TypeName) (name : String) (line : Nat)
  | label (name : String) (line : Nat)
  | instr (i : SourceInstr)
  | catch_
  | tryBlock (body : List SourceStatement) (catches : Bool) (catchBody : List SourceStatement)
    (line : Nat)

mutual

def SourceStatement.lexemes : SourceStatement → List Lexeme
  | .param key type name required _ => .word "PARAM" :: key.lexemes ++
      [.comma, .word type.name, .comma, .word name, .comma,
        .word (if required then "REQUIRED" else "OPTIONAL")]
  | .local_ index type name _ =>
    [.word "LOCAL", .number index, .comma, .word type.name, .comma, .word name]
  | .label name _ => [.word "LABEL", .word name]
  | .instr i => i.lexemes
  | .catch_ => [.word "CATCH"]
  | .tryBlock body catches catchBody _ => .word "TRY" :: lexemesOfAll body ++
      (if catches then [.word "CATCH"] else []) ++ lexemesOfAll catchBody ++ [.word "ENDTRY"]

def lexemesOfAll : List SourceStatement → List Lexeme
  | [] => []
  | stmt :: stmts => stmt.lexemes ++ lexemesOfAll stmts

end

mutual

/-- The statement that the parser makes, unless it is one of the function or of its block. -/
def SourceStatement.asts : SourceStatement → List Statement
  | .param _ _ _ _ _ => []
  | .local_ index type name line => [.local_ ⟨index.slot, type.type, name, line⟩]
  | .label name line => [.label name line]
  | .instr i => [.instr i.ast]
  | .catch_ => []
  | .tryBlock body _ catchBody line =>
    [.tryBlock ("__catch_" ++ toString line) ("__endtry_" ++ toString line) (astsOfAll body)
      (astsOfAll catchBody) line]

def astsOfAll : List SourceStatement → List Statement
  | [] => []
  | stmt :: stmts => stmt.asts ++ astsOfAll stmts

end

theorem astsOfAll_cons {s : SourceStatement} {stmt : Statement} (h : s.asts = [stmt])
    (stmts : List SourceStatement) : astsOfAll (s :: stmts) = stmt :: astsOfAll stmts := by
  rw [astsOfAll, h]
  rfl

/-- The key of a `PARAM` as it is written, and its declaration. -/
def SourceStatement.asParam : SourceStatement → Option (SourceValue × ParamDecl)
  | .param key type name required line => some (key, ⟨key.ast, type.type, name, required, line⟩)
  | _ => none

/-- A function as it is written. -/
structure SourceFunction where
  name : String
  items : List SourceStatement
  line : Nat

namespace SourceFunction

def lexemes (f : SourceFunction) : List Lexeme :=
  .word "FUNC" :: .word f.name :: lexemesOfAll f.items ++ [.word "ENDF"]

/-- The `PARAM`s. -/
def params (f : SourceFunction) : List (SourceValue × ParamDecl) :=
  f.items.filterMap SourceStatement.asParam

def ast (f : SourceFunction) : Function :=
  ⟨f.name, f.params.map (·.2), astsOfAll f.items, f.line⟩

end SourceFunction

/-- A global as it is written. -/
structure SourceGlobal where
  index : Literal
  type : TypeName
  init : SourceValue
  line : Nat

def SourceGlobal.ast (g : SourceGlobal) : GlobalReserve :=
  ⟨g.index.bits.setWidth 32, g.type.type, g.init.ast, g.line⟩

/-- An item of a source. -/
inductive SourceItem where
  | define (name : String) (value : SourceValue) (line : Nat)
  | import_ (path word alias_ : String) (line : Nat)
  | reserve (g : SourceGlobal)
  | func (f : SourceFunction)

namespace SourceItem

def lexemes : SourceItem → List Lexeme
  | .define name value _ => .word "DEFINE" :: .word name :: .comma :: value.lexemes
  | .import_ path word alias_ _ =>
    [.word "IMPORT", .other (.stringLit path) rfl, .word word, .word alias_]
  | .reserve g => .word "RESERVE" :: .number g.index :: .comma :: .word g.type.name :: .comma ::
      g.init.lexemes
  | .func f => f.lexemes

def addTo (prog : ProgramAst) : SourceItem → ProgramAst
  | .define name value line => { prog with defines := ⟨name, value.ast, line⟩ :: prog.defines }
  | .import_ path _ alias_ line => { prog with imports := ⟨path, alias_, line⟩ :: prog.imports }
  | .reserve g => { prog with globalReserves := g.ast :: prog.globalReserves }
  | .func f => { prog with functions := f.ast :: prog.functions }

end SourceItem

/-- A source as it is written. -/
structure Source where
  items : List SourceItem

namespace Source

def lexemes (src : Source) : List Lexeme := src.items.flatMap SourceItem.lexemes

def ast (src : Source) : ProgramAst :=
  src.items.foldr (fun item prog => item.addTo prog) ⟨[], [], [], []⟩

end Source

/-- The text is that of the source. -/
def Source.Of (u : Unicode) (src : Source) (text : String) : Prop :=
  Scans u text.toList src.lexemes

/-! ## Cursors -/

/-- The tokens from the cursor on are those of the lexemes. -/
def Cursor.At (c : Cursor) (ls : List Lexeme) : Prop := TokensOf (c.cur :: c.rest) ls

section Cursor

variable {c : Cursor} {x : Lexeme} {ls : List Lexeme}

theorem Cursor.At.eof (h : c.At []) : c.cur.kind = .eof := (List.cons.inj h).1

theorem Cursor.At.kind_eq (h : c.At (x :: ls)) : c.cur.kind = x.kind := (List.cons.inj h).1

/-- Behind a lexeme there are further tokens. -/
theorem Cursor.At.rest_eq (h : c.At (x :: ls)) : ∃ t rest, c.rest = t :: rest ∧
    (Cursor.mk t rest).At ls := by
  have hrest : c.rest.map Token.kind = ls.map Lexeme.kind ++ [.eof] := (List.cons.inj h).2
  cases hcr : c.rest with
  | nil =>
    rw [hcr] at hrest
    exact absurd hrest.symm (List.append_ne_nil_of_right_ne_nil _ (List.cons_ne_nil _ _))
  | cons t rest =>
    rw [hcr] at hrest
    exact ⟨t, rest, rfl, hrest⟩

/-- A token that is not the end is that of a lexeme. -/
theorem Cursor.At.exists_cons (h : c.At ls) (hcur : c.cur.kind ≠ .eof) :
    ∃ x ls', ls = x :: ls' ∧ c.cur.kind = x.kind := by
  cases ls with
  | nil => exact absurd h.eof hcur
  | cons x ls' => exact ⟨x, ls', rfl, h.kind_eq⟩

end Cursor

namespace ParseM

variable {u : Unicode} {α β : Type} {c : Cursor} {ls : List Lexeme}
  {Q : α → List Lexeme → Prop} {R : β → List Lexeme → Prop}

/-- What the parser returns from `c`, if it does, is related to the lexemes that it has read. -/
def Reads (x : ParseM α) (c : Cursor) (ls : List Lexeme) (Q : α → List Lexeme → Prop) : Prop :=
  Meets (fun _ => True) x c fun a c' => ∃ used rest, ls = used ++ rest ∧ c'.At rest ∧ Q a used

namespace Reads

theorem pure {a : α} (hc : c.At ls) (h : Q a []) : Reads (pure a) c ls Q := ⟨[], ls, rfl, hc, h⟩

theorem fail {ln : Nat} {msg : String} : Reads (fail ln msg) c ls Q := trivial

theorem unexpected {t : Token} {expected : String} : Reads (unexpected u t expected) c ls Q :=
  trivial

theorem throw {e : CompileFail} : Reads (throw e) c ls Q := trivial

theorem ite {p : Prop} [Decidable p] {x y : ParseM α} (hx : p → Reads x c ls Q)
    (hy : ¬ p → Reads y c ls Q) : Reads (if p then x else y) c ls Q := Meets.ite hx hy

/-- What is read in sequence. -/
theorem bind {x : ParseM α} {f : α → ParseM β} (hx : Reads x c ls Q)
    (hf : ∀ a c' used rest, Q a used → ls = used ++ rest → c'.At rest →
      Reads (f a) c' rest fun b used' => R b (used ++ used')) : Reads (x >>= f) c ls R := by
  refine Meets.bind hx ?_
  rintro a c' ⟨used, rest, hls, hc', ha⟩
  refine (hf a c' used rest ha hls hc').mono ?_
  rintro b c'' ⟨used', rest', rfl, hc'', hb⟩
  exact ⟨used ++ used', rest', by rw [hls, List.append_assoc], hc'', hb⟩

theorem mono {Q' : α → List Lexeme → Prop} {x : ParseM α} (h : Reads x c ls Q)
    (hQ : ∀ a used, Q a used → Q' a used) : Reads x c ls Q' := by
  refine Meets.mono h ?_
  rintro a c' ⟨used, rest, hls, hc', ha⟩
  exact ⟨used, rest, hls, hc', hQ a used ha⟩

/-- Looking at the current token. -/
theorem peek {f : Token → ParseM β} (hf : Reads (f c.cur) c ls R) : Reads (peek >>= f) c ls R := hf

theorem line {f : Nat → ParseM β} (hf : ∀ ln, Reads (f ln) c ls R) : Reads (line >>= f) c ls R :=
  hf _

end Reads

/-- What is read with one token: its lexeme, unless it is the end. -/
def Consumes (t : Token) (used : List Lexeme) : Prop :=
  (∃ x, used = [x] ∧ t.kind = x.kind) ∨ used = [] ∧ t.kind = .eof

section Consumes

variable {t : Token} {used : List Lexeme}

theorem Consumes.exists_lexeme {k : TokenKind} (h : Consumes t used) (hkind : t.kind = k)
    (hk : k ≠ .eof) : ∃ x, used = [x] ∧ x.kind = k := by
  rcases h with ⟨x, hx, htx⟩ | ⟨-, heof⟩
  · exact ⟨x, hx, htx.symm.trans hkind⟩
  · exact absurd (hkind.symm.trans heof) hk

theorem Consumes.of_kind {k : TokenKind} (h : Consumes t used) (hkind : t.kind = k)
    (hk : k.isOther = true) : used = [.other k hk] := by
  have hne : k ≠ .eof := by
    rintro rfl
    cases hk
  obtain ⟨x, rfl, hx⟩ := h.exists_lexeme hkind hne
  rw [Lexeme.of_kind hx hk]

theorem Consumes.of_integer {n : U64} (h : Consumes t used) (hkind : t.kind = .integer n) :
    ∃ l : Literal, used = [.number l] ∧ l.isHex = false ∧ l.bits = n := by
  obtain ⟨x, rfl, hx⟩ := h.exists_lexeme hkind nofun
  obtain ⟨l, rfl, hl⟩ := Lexeme.of_integer hx
  exact ⟨l, rfl, hl⟩

theorem Consumes.of_hexInteger {n : U64} (h : Consumes t used) (hkind : t.kind = .hexInteger n) :
    ∃ l : Literal, used = [.number l] ∧ l.isHex = true ∧ l.bits = n := by
  obtain ⟨x, rfl, hx⟩ := h.exists_lexeme hkind nofun
  obtain ⟨l, rfl, hl⟩ := Lexeme.of_hexInteger hx
  exact ⟨l, rfl, hl⟩

end Consumes

theorem reads_advance (hc : c.At ls) : Reads advance c ls Consumes := by
  obtain ⟨cur, rest⟩ := c
  cases ls with
  | nil =>
    cases rest with
    | nil => exact ⟨[], [], rfl, hc, .inr ⟨rfl, hc.eof⟩⟩
    | cons t rest => cases (List.cons.inj hc).2
  | cons x ls' =>
    obtain ⟨t, rest', hrest, hat⟩ := hc.rest_eq
    obtain rfl : rest = t :: rest' := hrest
    exact ⟨[x], ls', rfl, hat, .inl ⟨x, rfl, hc.kind_eq⟩⟩

/-- A token that has been looked at is consumed. -/
theorem reads_advance_of {k : TokenKind} (hc : c.At ls) (hcur : c.cur.kind = k)
    (hk : k.isOther = true) : Reads advance c ls fun _ used => used = [.other k hk] := by
  obtain ⟨cur, rest⟩ := c
  have hne : cur.kind ≠ .eof := fun h => by
    rw [show cur.kind = k from hcur] at h
    subst h
    cases hk
  obtain ⟨x, ls', rfl, hx⟩ := hc.exists_cons hne
  obtain ⟨t, rest', hrest, hat⟩ := hc.rest_eq
  obtain rfl : rest = t :: rest' := hrest
  exact ⟨[x], ls', rfl, hat, by rw [Lexeme.of_kind (hx.symm.trans hcur) hk]⟩

theorem reads_expectIdent (hc : c.At ls) :
    Reads (expectIdent u) c ls fun s used => used = [.word s] := by
  refine (reads_advance hc).bind ?_
  intro t c' used rest hused _ hc'
  split
  case h_1 s hkind =>
    rw [hused.of_kind hkind rfl]
    exact .pure hc' rfl
  case h_2 => exact .unexpected

theorem reads_expectComma (hc : c.At ls) :
    Reads (expectComma u) c ls fun _ used => used = [.comma] := by
  refine (reads_advance hc).bind ?_
  intro t c' used rest hused _ hc'
  refine .ite (fun hkind => ?_) fun _ => .unexpected
  rw [hused.of_kind hkind rfl]
  exact .pure hc' rfl

theorem reads_expectString (hc : c.At ls) :
    Reads (expectString u) c ls fun s used => used = [.other (.stringLit s) rfl] := by
  refine (reads_advance hc).bind ?_
  intro t c' used rest hused _ hc'
  split
  case h_1 s hkind =>
    rw [hused.of_kind hkind rfl]
    exact .pure hc' rfl
  case h_2 => exact .unexpected

theorem reads_parseType (hc : c.At ls) : Reads (parseType u) c ls fun t used =>
    ∃ n : TypeName, n.type = t ∧ used = [.word n.name] := by
  refine (reads_advance hc).bind ?_
  intro t c' used rest hused _ hc'
  split
  case h_1 s hkind =>
    split
    case h_1 ty hty =>
      rw [hused.of_kind hkind rfl]
      exact .pure hc' ⟨⟨s, ty, hty⟩, rfl, rfl⟩
    case h_2 => exact .fail
  case h_2 => exact .unexpected

theorem reads_parseU32 (hc : c.At ls) : Reads (parseU32 u) c ls fun n used =>
    ∃ l : Literal, used = [.number l] ∧ n = l.bits.setWidth 32 := by
  refine (reads_advance hc).bind ?_
  intro t c' used rest hused _ hc'
  split
  case h_1 n hkind =>
    refine .ite (fun _ => .pure hc' ?_) fun _ => .unexpected
    obtain ⟨l, rfl, -, rfl⟩ := hused.of_integer hkind
    exact ⟨l, rfl, rfl⟩
  case h_2 n hkind =>
    refine .pure hc' ?_
    obtain ⟨l, rfl, -, rfl⟩ := hused.of_hexInteger hkind
    exact ⟨l, rfl, rfl⟩
  case h_3 => exact .unexpected

theorem reads_parseU8 (hc : c.At ls) : Reads (parseU8 u) c ls fun n used =>
    ∃ l : Literal, used = [.number l] ∧ n = l.slot := by
  refine (reads_parseU32 hc).bind ?_
  rintro v c' used rest ⟨l, rfl, rfl⟩ - hc'
  exact .ite (fun _ => .throw) fun _ => .pure hc' ⟨l, rfl, rfl⟩

theorem reads_parseValue (hc : c.At ls) : Reads (parseValue u) c ls fun a used =>
    ∃ v : SourceValue, v.ast = a ∧ used = v.lexemes := by
  rw [parseValue]
  refine (reads_advance hc).bind ?_
  intro t c' used rest hused _ hc'
  cases hkind : t.kind with
  | integer n =>
    obtain ⟨l, rfl, hhex, rfl⟩ := hused.of_integer hkind
    refine .pure hc' ⟨.number l, ?_, rfl⟩
    rw [SourceValue.ast, Literal.ast, hhex]
    rfl
  | hexInteger n =>
    obtain ⟨l, rfl, hhex, rfl⟩ := hused.of_hexInteger hkind
    refine .pure hc' ⟨.number l, ?_, rfl⟩
    rw [SourceValue.ast, Literal.ast, hhex]
    rfl
  | float bits =>
    rw [hused.of_kind hkind rfl]
    exact .pure hc' ⟨.float bits, rfl, rfl⟩
  | stringLit s =>
    rw [hused.of_kind hkind rfl]
    exact .pure hc' ⟨.str s, rfl, rfl⟩
  | ident s =>
    rw [hused.of_kind hkind rfl]
    refine .ite (fun h => .pure hc' ⟨.word s, if_pos h, rfl⟩) fun h₁ => ?_
    refine .ite (fun h => .pure hc' ⟨.word s, ?_, rfl⟩) fun h₂ => ?_
    · rw [SourceValue.ast, if_neg h₁, if_pos h]
    refine .ite (fun h => .pure hc' ⟨.word s, ?_, rfl⟩) fun h₃ => .pure hc' ⟨.word s, ?_, rfl⟩
    · rw [SourceValue.ast, if_neg h₁, if_neg h₂, if_pos h]
    · rw [SourceValue.ast, if_neg h₁, if_neg h₂, if_neg h₃]
  | ampersand =>
    rw [hused.of_kind hkind rfl]
    refine (reads_expectIdent hc').bind ?_
    rintro name c'' used' rest' rfl - hc''
    exact .pure hc'' ⟨.deref name, rfl, rfl⟩
  | comma | dot | eof => exact .unexpected

theorem reads_parseOperandList : ∀ (fuel : Nat) {c : Cursor} {ls : List Lexeme}, c.At ls →
    Reads (parseOperandList u fuel) c ls fun vs used =>
      ∃ ops : List (SourceValue × Bool), ops.map (·.1.ast) = vs ∧ used = operandLexemes ops
  | 0, _, _, _ => .throw
  | fuel + 1, c, ls, hc => by
    rw [parseOperandList]
    refine .peek ?_
    refine .ite (fun _ => .pure hc ⟨[], rfl, rfl⟩) fun _ => ?_
    refine (reads_parseValue hc).bind ?_
    rintro _ c₁ _ rest₁ ⟨v, rfl, rfl⟩ - hc₁
    refine .peek ?_
    refine .ite (fun hcomma => ?_) fun _ => ?_
    · refine (reads_advance_of hc₁ hcomma rfl).bind ?_
      rintro - c₂ _ rest₂ rfl - hc₂
      refine (reads_parseOperandList fuel hc₂).bind ?_
      rintro _ c₃ _ rest₃ ⟨ops, rfl, rfl⟩ - hc₃
      refine .pure hc₃ ⟨(v, true) :: ops, rfl, ?_⟩
      simp [operandLexemes, Lexeme.comma]
    · exact .pure hc₁ ⟨[(v, false)], rfl, by simp [operandLexemes]⟩

/-! ## Statements -/

mutual

theorem reads_parseStatement : ∀ (fuel : Nat) {c : Cursor} {ls : List Lexeme}, c.At ls →
    Reads (parseStatement u fuel) c ls fun stmt used =>
      ∃ s : SourceStatement, s.asts = [stmt] ∧ used = s.lexemes
  | 0, _, _, _ => .throw
  | fuel + 1, c, ls, hc => by
    rw [parseStatement]
    refine .line fun ln => .peek ?_
    split
    case h_2 => exact .unexpected
    case h_1 kw hkind =>
      refine .ite (fun htry => ?_) fun _ => ?_
      · exact reads_parseTryBlock fuel hc (htry ▸ hkind)
      refine .ite (fun hlocal => ?_) fun _ => ?_
      · subst hlocal
        refine (reads_advance_of hc hkind rfl).bind ?_
        rintro - c₁ _ rest₁ rfl - hc₁
        refine (reads_parseU8 hc₁).bind ?_
        rintro _ c₂ _ rest₂ ⟨index, rfl, rfl⟩ - hc₂
        refine (reads_expectComma hc₂).bind ?_
        rintro - c₃ _ rest₃ rfl - hc₃
        refine (reads_parseType hc₃).bind ?_
        rintro _ c₄ _ rest₄ ⟨type, rfl, rfl⟩ - hc₄
        refine (reads_expectComma hc₄).bind ?_
        rintro - c₅ _ rest₅ rfl - hc₅
        refine (reads_expectIdent hc₅).bind ?_
        rintro name c₆ _ rest₆ rfl - hc₆
        exact .pure hc₆ ⟨.local_ index type name ln, rfl, rfl⟩
      refine .ite (fun hlabel => ?_) fun _ => ?_
      · subst hlabel
        refine (reads_advance_of hc hkind rfl).bind ?_
        rintro - c₁ _ rest₁ rfl - hc₁
        refine (reads_expectIdent hc₁).bind ?_
        rintro name c₂ _ rest₂ rfl - hc₂
        exact .pure hc₂ ⟨.label name ln, rfl, rfl⟩
      refine (reads_advance_of hc hkind rfl).bind ?_
      rintro - c₁ _ rest₁ rfl - hc₁
      refine .ite (fun hasync => ?_) fun _ => ?_
      · subst hasync
        refine (reads_expectIdent hc₁).bind ?_
        rintro next c₂ _ rest₂ rfl - hc₂
        refine (reads_parseOperandList fuel hc₂).bind ?_
        rintro _ c₃ _ rest₃ ⟨ops, rfl, rfl⟩ - hc₃
        refine .pure hc₃ ⟨.instr ⟨true, next, ops, ln⟩, rfl, ?_⟩
        rw [List.append_nil]
        rfl
      · refine (reads_parseOperandList fuel hc₁).bind ?_
        rintro _ c₂ _ rest₂ ⟨ops, rfl, rfl⟩ - hc₂
        refine .pure hc₂ ⟨.instr ⟨false, kw, ops, ln⟩, rfl, ?_⟩
        rw [List.append_nil]
        rfl

theorem reads_parseTryBlock : ∀ (fuel : Nat) {c : Cursor} {ls : List Lexeme}, c.At ls →
    c.cur.kind = .ident "TRY" → Reads (parseTryBlock u fuel) c ls fun stmt used =>
      ∃ s : SourceStatement, s.asts = [stmt] ∧ used = s.lexemes
  | 0, _, _, _, _ => .throw
  | fuel + 1, c, ls, hc, hcur => by
    rw [parseTryBlock]
    refine .line fun ln => ?_
    refine (reads_advance_of hc hcur rfl).bind ?_
    rintro - c₁ _ rest₁ rfl - hc₁
    refine (reads_parseTryBody ln false fuel hc₁).bind ?_
    rintro ⟨_, _⟩ c₂ _ rest₂ ⟨body, catches, catchBody, rfl, rfl, rfl, -⟩ - hc₂
    refine .pure hc₂ ⟨.tryBlock body catches catchBody ln, rfl, ?_⟩
    rw [List.append_nil, SourceStatement.lexemes]
    rfl

/-- What is read of a `TRY` block: up to its first `CATCH` and the rest, or the rest. -/
theorem reads_parseTryBody (ln : Nat) (inCatch : Bool) : ∀ (fuel : Nat) {c : Cursor}
    {ls : List Lexeme}, c.At ls → Reads (parseTryBody u ln inCatch fuel) c ls fun bodies used =>
      ∃ body catches catchBody, astsOfAll body = bodies.1 ∧ astsOfAll catchBody = bodies.2 ∧
        used = lexemesOfAll body ++ (if catches then [.word "CATCH"] else []) ++
          lexemesOfAll catchBody ++ [.word "ENDTRY"] ∧
        (inCatch = true → body = [] ∧ catches = false)
  | 0, _, _, _ => .throw
  | fuel + 1, c, ls, hc => by
    rw [parseTryBody]
    refine .peek ?_
    refine .ite (fun _ => .fail) fun _ => ?_
    refine .ite (fun hcatch => ?_) fun _ => ?_
    · refine (reads_advance_of hc hcatch rfl).bind ?_
      rintro - c₁ _ rest₁ rfl - hc₁
      refine (reads_parseTryBody ln true fuel hc₁).mono ?_
      rintro bodies _ ⟨body, catches, catchBody, hbody, hcatchBody, rfl, hin⟩
      obtain ⟨rfl, rfl⟩ := hin rfl
      cases inCatch with
      | true => exact ⟨[], false, .catch_ :: catchBody, hbody, hcatchBody, rfl, fun _ => ⟨rfl, rfl⟩⟩
      | false => exact ⟨[], true, catchBody, hbody, hcatchBody, rfl, nofun⟩
    refine .ite (fun hend => ?_) fun _ => ?_
    · refine (reads_advance_of hc hend rfl).bind ?_
      rintro - c₁ _ rest₁ rfl - hc₁
      exact .pure hc₁ ⟨[], false, [], rfl, rfl, rfl, fun _ => ⟨rfl, rfl⟩⟩
    · refine (reads_parseStatement fuel hc).bind ?_
      rintro stmt c₁ _ rest₁ ⟨s, hs, rfl⟩ - hc₁
      refine (reads_parseTryBody ln inCatch fuel hc₁).bind ?_
      rintro ⟨_, _⟩ c₂ _ rest₂ ⟨body, catches, catchBody, rfl, rfl, rfl, hin⟩ - hc₂
      refine .pure hc₂ ?_
      cases inCatch with
      | true =>
        obtain ⟨rfl, rfl⟩ := hin rfl
        refine ⟨[], false, s :: catchBody, rfl, astsOfAll_cons hs _, ?_, fun _ => ⟨rfl, rfl⟩⟩
        simp [lexemesOfAll]
      | false =>
        refine ⟨s :: body, catches, catchBody, astsOfAll_cons hs _, rfl, ?_, nofun⟩
        simp [lexemesOfAll]

end

/-! ## Programs -/

theorem reads_parseParam (hc : c.At ls) (hcur : c.cur.kind = .ident "PARAM") :
    Reads (parseParam u) c ls fun param used => ∃ s : SourceStatement, s.asts = [] ∧
      s.asParam.map Prod.snd = some param ∧ used = s.lexemes := by
  rw [parseParam]
  refine .line fun ln => ?_
  refine (reads_advance_of hc hcur rfl).bind ?_
  rintro - c₁ _ rest₁ rfl - hc₁
  refine (reads_parseValue hc₁).bind ?_
  rintro _ c₂ _ rest₂ ⟨key, rfl, rfl⟩ - hc₂
  refine (reads_expectComma hc₂).bind ?_
  rintro - c₃ _ rest₃ rfl - hc₃
  refine (reads_parseType hc₃).bind ?_
  rintro _ c₄ _ rest₄ ⟨type, rfl, rfl⟩ - hc₄
  refine (reads_expectComma hc₄).bind ?_
  rintro - c₅ _ rest₅ rfl - hc₅
  refine (reads_expectIdent hc₅).bind ?_
  rintro name c₆ _ rest₆ rfl - hc₆
  refine (reads_expectComma hc₆).bind ?_
  rintro - c₇ _ rest₇ rfl - hc₇
  refine (reads_expectIdent hc₇).bind ?_
  rintro req c₈ _ rest₈ rfl - hc₈
  refine .ite (fun hreq => .pure hc₈ ⟨.param key type name true ln, rfl, rfl, ?_⟩) fun _ => ?_
  · rw [hreq]
    rfl
  refine .ite (fun hopt => .pure hc₈ ⟨.param key type name false ln, rfl, rfl, ?_⟩) fun _ => .fail
  rw [hopt]
  rfl

/-- A statement is no `PARAM` of the function. -/
theorem asParam_of_asts {s : SourceStatement} {stmt : Statement} (h : s.asts = [stmt]) :
    s.asParam = none := by
  cases s <;> first | rfl | cases h

theorem reads_parseFunctionBody (ln : Nat) (name : String) : ∀ (fuel : Nat) {c : Cursor}
    {ls : List Lexeme}, c.At ls → Reads (parseFunctionBody u ln name fuel) c ls fun r used =>
      ∃ items, (items.filterMap SourceStatement.asParam).map Prod.snd = r.1 ∧
        astsOfAll items = r.2 ∧ used = lexemesOfAll items ++ [.word "ENDF"]
  | 0, _, _, _ => .throw
  | fuel + 1, c, ls, hc => by
    rw [parseFunctionBody]
    refine .peek ?_
    refine .ite (fun _ => .fail) fun _ => ?_
    refine .ite (fun hend => ?_) fun _ => ?_
    · refine (reads_advance_of hc hend rfl).bind ?_
      rintro - c₁ _ rest₁ rfl - hc₁
      exact .pure hc₁ ⟨[], rfl, rfl, rfl⟩
    refine .ite (fun hparam => ?_) fun _ => ?_
    · refine (reads_parseParam hc hparam).bind ?_
      rintro _ c₁ _ rest₁ ⟨s, hs, hparam, rfl⟩ - hc₁
      refine (reads_parseFunctionBody ln name fuel hc₁).bind ?_
      rintro ⟨_, _⟩ c₂ _ rest₂ ⟨items, rfl, rfl, rfl⟩ - hc₂
      obtain ⟨p, hp, rfl⟩ := Option.map_eq_some_iff.mp hparam
      refine .pure hc₂ ⟨s :: items, ?_, ?_, ?_⟩
      · rw [List.filterMap_cons_some hp]
        rfl
      · rw [astsOfAll, hs]
        rfl
      · simp [lexemesOfAll]
    · refine (reads_parseStatement fuel hc).bind ?_
      rintro stmt c₁ _ rest₁ ⟨s, hs, rfl⟩ - hc₁
      refine (reads_parseFunctionBody ln name fuel hc₁).bind ?_
      rintro ⟨_, _⟩ c₂ _ rest₂ ⟨items, rfl, rfl, rfl⟩ - hc₂
      refine .pure hc₂ ⟨s :: items, ?_, astsOfAll_cons hs _, ?_⟩
      · rw [List.filterMap_cons_none (asParam_of_asts hs)]
      · simp [lexemesOfAll]

theorem reads_parseFunction {fuel : Nat} (hc : c.At ls) (hcur : c.cur.kind = .ident "FUNC") :
    Reads (parseFunction u fuel) c ls fun f used =>
      ∃ sf : SourceFunction, sf.ast = f ∧ used = sf.lexemes := by
  rw [parseFunction]
  refine .line fun ln => ?_
  refine (reads_advance_of hc hcur rfl).bind ?_
  rintro - c₁ _ rest₁ rfl - hc₁
  refine (reads_expectIdent hc₁).bind ?_
  rintro name c₂ _ rest₂ rfl - hc₂
  refine (reads_parseFunctionBody ln name fuel hc₂).bind ?_
  rintro ⟨_, _⟩ c₃ _ rest₃ ⟨items, rfl, rfl, rfl⟩ - hc₃
  refine .pure hc₃ ⟨⟨name, items, ln⟩, rfl, ?_⟩
  rw [List.append_nil]
  rfl

/-- A program is read up to the end. -/
theorem reads_parseProgram : ∀ (fuel : Nat) {c : Cursor} {ls : List Lexeme}, c.At ls →
    Reads (parseProgram u fuel) c ls fun prog used =>
      used = ls ∧ ∃ src : Source, src.ast = prog ∧ used = src.lexemes
  | 0, _, _, _ => .throw
  | fuel + 1, c, ls, hc => by
    -- an item in front of the others
    have hitem (item : SourceItem) {used rest : List Lexeme} {c' : Cursor}
        (hused : used = item.lexemes) (hls : ls = used ++ rest) (hc' : c'.At rest) :
        Reads (parseProgram u fuel >>= fun prog => pure (item.addTo prog)) c' rest
          fun prog used' => used ++ used' = ls ∧
            ∃ src : Source, src.ast = prog ∧ used ++ used' = src.lexemes := by
      refine (reads_parseProgram fuel hc').bind ?_
      rintro _ c'' _ rest' ⟨rfl, src, rfl, hsrc⟩ - hc''
      refine .pure hc'' ⟨?_, ⟨item :: src.items⟩, rfl, ?_⟩
      · rw [List.append_nil, hls]
      · rw [List.append_nil, hused, hsrc]
        rfl
    rw [parseProgram]
    refine .line fun ln => .peek ?_
    cases hkind : c.cur.kind with
    | eof =>
      cases ls with
      | nil => exact .pure hc ⟨rfl, ⟨[]⟩, rfl, rfl⟩
      | cons x ls => exact absurd (hc.kind_eq.symm.trans hkind) x.kind_ne_eof
    | ident kw =>
      refine .ite (fun hdefine => ?_) fun _ => ?_
      · subst hdefine
        refine (reads_advance_of hc hkind rfl).bind ?_
        rintro - c₁ _ rest₁ rfl h₁ hc₁
        refine (reads_expectIdent hc₁).bind ?_
        rintro name c₂ _ rest₂ rfl h₂ hc₂
        refine (reads_expectComma hc₂).bind ?_
        rintro - c₃ _ rest₃ rfl h₃ hc₃
        refine (reads_parseValue hc₃).bind ?_
        rintro _ c₄ _ rest₄ ⟨value, rfl, rfl⟩ h₄ hc₄
        exact hitem (.define name value ln) rfl (by rw [h₁, h₂, h₃, h₄]; rfl) hc₄
      refine .ite (fun himport => ?_) fun _ => ?_
      · subst himport
        refine (reads_advance_of hc hkind rfl).bind ?_
        rintro - c₁ _ rest₁ rfl h₁ hc₁
        refine (reads_expectString hc₁).bind ?_
        rintro path c₂ _ rest₂ rfl h₂ hc₂
        refine (reads_expectIdent hc₂).bind ?_
        rintro word c₃ _ rest₃ rfl h₃ hc₃
        refine (reads_expectIdent hc₃).bind ?_
        rintro alias_ c₄ _ rest₄ rfl h₄ hc₄
        exact hitem (.import_ path word alias_ ln) rfl (by rw [h₁, h₂, h₃, h₄]; rfl) hc₄
      refine .ite (fun hreserve => ?_) fun _ => ?_
      · subst hreserve
        refine (reads_advance_of hc hkind rfl).bind ?_
        rintro - c₁ _ rest₁ rfl h₁ hc₁
        refine (reads_parseU32 hc₁).bind ?_
        rintro _ c₂ _ rest₂ ⟨index, rfl, rfl⟩ h₂ hc₂
        refine (reads_expectComma hc₂).bind ?_
        rintro - c₃ _ rest₃ rfl h₃ hc₃
        refine (reads_parseType hc₃).bind ?_
        rintro _ c₄ _ rest₄ ⟨type, rfl, rfl⟩ h₄ hc₄
        refine (reads_expectComma hc₄).bind ?_
        rintro - c₅ _ rest₅ rfl h₅ hc₅
        refine (reads_parseValue hc₅).bind ?_
        rintro _ c₆ _ rest₆ ⟨init, rfl, rfl⟩ h₆ hc₆
        exact hitem (.reserve ⟨index, type, init, ln⟩) rfl
          (by rw [h₁, h₂, h₃, h₄, h₅, h₆]; rfl) hc₆
      refine .ite (fun hfunc => ?_) fun _ => .fail
      subst hfunc
      refine (reads_parseFunction hc hkind).bind ?_
      rintro _ c₁ _ rest₁ ⟨f, rfl, rfl⟩ h₁ hc₁
      exact hitem (.func f) rfl h₁ hc₁
    | _ => exact .fail

end ParseM

/-- **What is accepted is well formed**: a text that is parsed is that of a source whose tree is
the one that is returned. -/
theorem frontend_source {u : Unicode} {text : String} {ast : ProgramAst}
    (h : frontend u text = .ok ast) : ∃ src : Source, src.Of u text ∧ src.ast = ast := by
  obtain ⟨tokens, htokens, hast, -⟩ := frontend_stages h
  obtain ⟨ls, hscan, hkinds⟩ := lexFrom_cuts _ _ _ _ htokens
  cases tokens with
  | nil => cases hast
  | cons t rest =>
    obtain ⟨⟨prog, c⟩, hrun, hast⟩ := bind_eq_ok hast
    cases hast
    have hat : (Cursor.mk t rest).At ls := hkinds
    obtain ⟨used, rest', hls, -, rfl, src, rfl, hsrc⟩ :=
      (ParseM.reads_parseProgram _ hat).of_ok hrun
    exact ⟨src, by rw [Source.Of, ← hsrc]; exact hscan, rfl⟩

end Fasm
