import Fasm.Compiler.Scanning
import Fasm.Compiler.Syntax

/-!
# Printing function bodies

One statement on each line, with commas between the operands.  The text of a body is cut into the
lexemes of its statements, line by line.
-/

namespace Fasm

/-! ## Numbers -/

section Digits

theorem mem_toDigits {b : Nat} (hb : 1 < b) {p : Char → Prop}
    (hp : ∀ d < b, p d.digitChar) (n : Nat) : ∀ c ∈ Nat.toDigits b n, p c := by
  induction n using Nat.strongRecOn with
  | ind n ih =>
    by_cases hn : n < b
    · rw [Nat.toDigits_of_lt_base hn]
      exact List.forall_mem_singleton.mpr (hp n hn)
    · have hle := Nat.le_of_not_lt hn
      rw [Nat.toDigits_of_base_le hb hle, List.forall_mem_append]
      have hlt : n / b < n := Nat.div_lt_self (by omega) hb
      exact ⟨ih _ hlt, List.forall_mem_singleton.mpr (hp _ (Nat.mod_lt n (by omega)))⟩

/-- The digits of a number denote it. -/
theorem ofDigits_toDigits {b : Nat} (hb : 1 < b) (hle : b ≤ 16) (n : Nat) :
    ofDigits b hexValue (Nat.toDigits b n) = n := by
  have hdigit : ∀ d < 16, hexValue d.digitChar = d := by decide
  induction n using Nat.strongRecOn with
  | ind n ih =>
    by_cases hn : n < b
    · rw [Nat.toDigits_of_lt_base hn, ofDigits, List.foldl_cons, List.foldl_nil,
        hdigit n (by omega), Nat.mul_zero, Nat.zero_add]
    · have hmod : n % b < b := Nat.mod_lt n (by omega)
      have hdiv := ih (n / b) (Nat.div_lt_self (by omega) hb)
      rw [ofDigits] at hdiv
      rw [Nat.toDigits_of_base_le hb (Nat.le_of_not_lt hn), ofDigits, List.foldl_append, hdiv,
        List.foldl_cons, List.foldl_nil, hdigit _ (by omega), Nat.div_add_mod]

end Digits

namespace Literal

theorem parseI64_toDigits (n : U64) :
    parseI64 (decide (n.toInt < 0)) (Nat.toDigits 10 n.toInt.natAbs) = some n := by
  have hvalue : ofDecimal (Nat.toDigits 10 n.toInt.natAbs) = n.toInt.natAbs :=
    ofDigits_toDigits (by decide) (by decide) _
  have hlo : -2 ^ 63 ≤ n.toInt := BitVec.le_toInt n
  have hhi : n.toInt < 2 ^ 63 := BitVec.toInt_lt
  rw [parseI64, hvalue]
  simp only [decide_eq_true_eq]
  split
  case isTrue hneg =>
    have habs : (n.toInt.natAbs : Int) = -n.toInt := Int.ofNat_natAbs_of_nonpos (Int.le_of_lt hneg)
    have hbits : BitVec.ofNat 64 n.toInt.natAbs = -n := by
      rw [← BitVec.ofInt_natCast, habs, BitVec.ofInt_neg, BitVec.ofInt_toInt]
    rw [if_pos (by omega), hbits, BitVec.neg_neg]
  case isFalse hpos =>
    have habs : (n.toInt.natAbs : Int) = n.toInt := Int.natAbs_of_nonneg (Int.not_lt.mp hpos)
    have hbits : BitVec.ofNat 64 n.toInt.natAbs = n := by
      rw [← BitVec.ofInt_natCast, habs, BitVec.ofInt_toInt]
    rw [if_pos (by omega), hbits]

/-- An integer in decimal. -/
def ofInt (n : U64) : Literal where
  negative := n.toInt < 0
  mark := none
  digits := Nat.toDigits 10 n.toInt.natAbs
  bits := n
  mark_eq := mark_none
  digits_ne_nil := Nat.toDigits_ne_nil
  isDigit := mem_toDigits (by decide) (by decide) _
  lexed := parseI64_toDigits n

theorem parseHex_toDigits (n : U64) : parseHex (Nat.toDigits 16 n.toNat) = some n := by
  rw [parseHex, if_neg Nat.toDigits_ne_nil, ofDigits_toDigits (by decide) (by decide)]
  simp only
  rw [if_pos n.isLt, BitVec.ofNat_toNat, BitVec.setWidth_eq]

/-- An integer in hexadecimal. -/
def ofHex (n : U64) : Literal where
  negative := false
  mark := some 'x'
  digits := Nat.toDigits 16 n.toNat
  bits := n
  mark_eq := mark_x
  digits_ne_nil := Nat.toDigits_ne_nil
  isDigit := mem_toDigits (by decide) (by decide) _
  lexed := parseHex_toDigits n

/-- The index of a local. -/
def ofIndex (index : U8) : Literal := ofInt (index.setWidth 64)

end Literal

/-! ## Printed texts -/

variable {u : Unicode}

/-- What follows ends a word and a number. -/
def EndsWord (rest : List Char) : Prop := ∀ c ∈ rest.head?, c ∈ [' ', ',', '\n']

theorem EndsWord.append {text rest : List Char} (htext : EndsWord text) (hrest : EndsWord rest) :
    EndsWord (text ++ rest) := by
  cases text with
  | nil => exact hrest
  | cons c text => exact htext

theorem EndsWord.head {p : Char → Prop} {rest : List Char} (h : EndsWord rest) (hspace : p ' ')
    (hcomma : p ',') (hline : p '\n') : ∀ c ∈ rest.head?, p c := by
  intro c hc
  have hmem := h c hc
  simp only [List.mem_cons, List.not_mem_nil, or_false] at hmem
  rcases hmem with rfl | rfl | rfl
  · exact hspace
  · exact hcomma
  · exact hline

variable (u) in
/-- The text, with the end of a word behind it, is cut into the lexemes. -/
def Prints (text : List Char) (xs : List Lexeme) : Prop := ∀ rest ls, EndsWord rest →
  Scans u rest ls → Scans u (text ++ rest) (xs ++ ls)

namespace Prints

variable {text text' : List Char} {xs xs' : List Lexeme}

theorem nil : Prints u [] [] := fun _ _ _ h => h

theorem append (h : Prints u text xs) (h' : Prints u text' xs') (hend : EndsWord text') :
    Prints u (text ++ text') (xs ++ xs') := by
  intro rest ls hrest hscan
  rw [List.append_assoc, List.append_assoc]
  exact h _ _ (hend.append hrest) (h' rest ls hrest hscan)

theorem blank (h : Prints u text xs) : Prints u (' ' :: text) xs := fun rest ls hrest hscan =>
  .blank (by decide) (h rest ls hrest hscan)

theorem mark {c : Char} {kind : TokenKind} (hc : (c, kind) ∈ markKinds)
    (hk : kind.isOther = true) (h : Prints u text xs) :
    Prints u (c :: text) (.other kind hk :: xs) := fun rest ls hrest hscan =>
  .mark hc hk (h rest ls hrest hscan)

theorem literal (l : Literal) : Prints u l.text [.number l] := by
  intro rest ls hrest hscan
  refine .number l ⟨hrest.head ?_ ?_ ?_, fun _ hdot => ?_, fun hhex => ?_⟩ hscan
  · cases l.isHex <;> rfl
  · cases l.isHex <;> rfl
  · cases l.isHex <;> rfl
  · exact hrest.head (p := (· ≠ '.')) (by decide) (by decide) (by decide) '.' hdot rfl
  · have hdigits := l.isDigit
    rw [show l.mark.isSome = false from hhex] at hdigits
    exact startsHex_append l.digits_ne_nil hdigits (hrest.head (by decide) (by decide) (by decide))

end Prints

/-! ## Words -/

variable (u) in
/-- The text is an identifier of the lexer. -/
def IsIdent (s : String) : Prop := ∃ c cs, s.toList = c :: cs ∧ isIdentStart u c = true ∧
  ∀ d ∈ cs, isIdentChar u d = true

theorem Prints.word {s : String} (h : IsIdent u s) : Prints u s.toList [.word s] := by
  obtain ⟨c, cs, hs, hc, hcs⟩ := h
  intro rest ls hrest hscan
  have hend : ∀ d ∈ rest.head?, isIdentChar u d = false := hrest.head
    (isIdentChar_ascii (by decide)) (isIdentChar_ascii (by decide)) (isIdentChar_ascii (by decide))
  have hword := Scans.word hc hcs hend hscan
  rwa [← hs, String.ofList_toList] at hword

/-- Letters, and behind the first also digits and underscores, of ASCII. -/
def asciiWord (s : String) : Bool :=
  match s.toList with
  | [] => false
  | c :: cs => c.isAlpha && cs.all fun d => d.isAlphanum || d == '_'

theorem lt_of_isAlphanum {c : Char} (h : c.isAlphanum = true) : c.toNat < 128 := by
  have halnum : c.isAlphanum = (c.isUpper || c.isLower || c.isDigit) := rfl
  rw [halnum, Bool.or_eq_true, Bool.or_eq_true] at h
  rcases h with (h | h) | h
  · exact Nat.lt_of_le_of_lt (of_decide_eq_true h).2 (by decide)
  · have hlower := Bool.and_eq_true_iff.mp h
    exact Nat.lt_of_le_of_lt (of_decide_eq_true hlower.2) (by decide)
  · rw [Char.isDigit, Bool.and_eq_true] at h
    exact Nat.lt_of_le_of_lt (of_decide_eq_true h.2) (by decide)

/-- The keywords, mnemonics and names of types are identifiers, whatever the tables say. -/
theorem IsIdent.of_asciiWord {s : String} (h : asciiWord s = true) : IsIdent u s := by
  rw [asciiWord] at h
  split at h
  case h_1 => cases h
  case h_2 c cs hs =>
    obtain ⟨hc, hcs⟩ := Bool.and_eq_true_iff.mp h
    refine ⟨c, cs, hs, ?_, fun d hd => ?_⟩
    · have hlt : c.toNat < 128 := lt_of_isAlphanum (by rw [Char.isAlphanum, hc, Bool.true_or])
      rw [isIdentStart_ascii hlt, hc, Bool.true_or, Bool.true_or]
    · rcases Bool.or_eq_true_iff.mp (List.all_eq_true.mp hcs d hd) with hd | hd
      · rw [isIdentChar_ascii (lt_of_isAlphanum hd), hd, Bool.true_or, Bool.true_or]
      · obtain rfl : d = '_' := eq_of_beq hd
        rw [isIdentChar_ascii (by decide)]
        rfl

/-! ## Strings -/

/-- A character of a string literal. -/
def escape (c : Char) : List Char :=
  if c = '\n' then [backslash, 'n'] else if c = '\t' then [backslash, 't']
  else if c = dquote || c = backslash then [backslash, c] else [c]

theorem lexString_dquote (rest : List Char) : lexString (dquote :: rest) = some ([], rest) := by
  rw [lexString.eq_def]
  rfl

theorem lexString_backslash (e : Char) (cs : List Char) : lexString (backslash :: e :: cs) =
    (lexString cs).map fun r => ((if e = 'n' then ['\n'] else if e = 't' then ['\t']
      else if e = dquote || e = backslash then [e] else []) ++ r.1, r.2) := by
  rw [lexString.eq_def]
  rfl

theorem lexString_plain {c : Char} {cs : List Char} (hquote : c ≠ dquote) (hslash : c ≠ backslash) :
    lexString (c :: cs) = (lexString cs).map fun r => (c :: r.1, r.2) := by
  rw [lexString.eq_def]
  simp only [if_neg hquote, if_neg hslash]

/-- An escaped string is read back, up to the quote behind it. -/
theorem lexString_escape (s rest : List Char) :
    lexString (s.flatMap escape ++ dquote :: rest) = some (s, rest) := by
  induction s with
  | nil => exact lexString_dquote rest
  | cons c s ih =>
    rw [List.flatMap_cons, List.append_assoc, escape]
    by_cases hline : c = '\n'
    · rw [if_pos hline, List.cons_append, List.singleton_append, lexString_backslash, ih, hline]
      rfl
    by_cases htab : c = '\t'
    · rw [if_neg hline, if_pos htab, List.cons_append, List.singleton_append, lexString_backslash,
        ih, htab]
      rfl
    rw [if_neg hline, if_neg htab]
    by_cases hquote : c = dquote
    · subst hquote
      rw [if_pos (by decide), List.cons_append, List.singleton_append, lexString_backslash, ih]
      rfl
    by_cases hslash : c = backslash
    · subst hslash
      rw [if_pos (by decide), List.cons_append, List.singleton_append, lexString_backslash, ih]
      rfl
    · rw [if_neg (by simp [hquote, hslash]), List.singleton_append, lexString_plain hquote hslash,
        ih]
      rfl

theorem Prints.str (s : String) : Prints u (dquote :: s.toList.flatMap escape ++ [dquote])
    [.other (.stringLit s) rfl] := by
  intro rest ls _ hscan
  have hs : lexString (s.toList.flatMap escape ++ dquote :: rest) = some (s.toList, rest) :=
    lexString_escape s.toList rest
  have htext := Scans.text hs hscan
  simp only [String.ofList_toList] at htext
  rwa [List.append_assoc, List.cons_append, List.singleton_append]

/-! ## Operands -/

namespace AstValue

def print : AstValue → List Char
  | .ident s => s.toList
  | .integer n => (Literal.ofInt n).text
  | .hexInt n => (Literal.ofHex n).text
  | .float _ => []
  | .deref name => '&' :: name.toList
  | .str s => dquote :: s.toList.flatMap escape ++ [dquote]
  | .null => "NULL".toList
  | .true_ => "TRUE".toList
  | .false_ => "FALSE".toList

/-- The operand expression as it is printed. -/
def source : AstValue → SourceValue
  | .ident s => .word s
  | .integer n => .number (.ofInt n)
  | .hexInt n => .number (.ofHex n)
  | .float bits => .float bits
  | .deref name => .deref name
  | .str s => .str s
  | .null => .word "NULL"
  | .true_ => .word "TRUE"
  | .false_ => .word "FALSE"

def lexemes (v : AstValue) : List Lexeme := v.source.lexemes

variable (u) in
/-- The operands that are printed: not the floats, and no identifier that means something else. -/
def Printable : AstValue → Prop
  | .ident s => IsIdent u s ∧ isKeyword s = false ∧ s ∉ ["NULL", "TRUE", "FALSE"]
  | .deref name => IsIdent u name
  | .float _ => False
  | _ => True

theorem prints {v : AstValue} (h : v.Printable u) : Prints u v.print v.lexemes := by
  cases v with
  | ident s => exact .word h.1
  | integer n => exact .literal _
  | hexInt n => exact .literal _
  | float bits => exact h.elim
  | deref name => exact .mark (by decide) rfl (.word h)
  | str s => exact .str s
  | null => exact .word (.of_asciiWord (by decide))
  | true_ => exact .word (.of_asciiWord (by decide))
  | false_ => exact .word (.of_asciiWord (by decide))

end AstValue

/-- The operands of an instruction behind its mnemonic. -/
def printOperands : List AstValue → List Char
  | [] => []
  | v :: vs => ' ' :: v.print ++ vs.flatMap fun w => ',' :: ' ' :: w.print

def lexemesOfOperands : List AstValue → List Lexeme
  | [] => []
  | v :: vs => v.lexemes ++ vs.flatMap fun w => .comma :: w.lexemes

theorem prints_operands {vs : List AstValue} (h : ∀ v ∈ vs, v.Printable u) :
    Prints u (printOperands vs) (lexemesOfOperands vs) ∧ EndsWord (printOperands vs) := by
  cases vs with
  | nil => exact ⟨.nil, nofun⟩
  | cons v vs =>
    obtain ⟨hv, hvs⟩ := List.forall_mem_cons.mp h
    have hmore : Prints u (vs.flatMap fun w => ',' :: ' ' :: w.print)
        (vs.flatMap fun w => .comma :: w.lexemes) ∧
        EndsWord (vs.flatMap fun w => ',' :: ' ' :: w.print) := by
      clear h hv
      induction vs with
      | nil => exact ⟨.nil, nofun⟩
      | cons w vs ih =>
        obtain ⟨hw, hvs⟩ := List.forall_mem_cons.mp hvs
        obtain ⟨hprints, hends⟩ := ih hvs
        refine ⟨.append (.mark (by decide) rfl (.blank (AstValue.prints hw))) hprints hends, ?_⟩
        rintro _ ⟨⟩
        decide
    refine ⟨.append (.blank (AstValue.prints hv)) hmore.1 hmore.2, ?_⟩
    rintro _ ⟨⟩
    decide

/-! ## Mnemonics and types -/

/-- The mnemonics that `emit_instr` knows. -/
def mnemonics : List String := "TMP_BLOCK" :: "END_TMP" :: "RET" :: instrTable.map Prod.fst

/-- The mnemonics that are written with `ASYNC` in front of a keyword. -/
def asyncForms : List (String × String) := [("ASYNC_CALL", "CALL"), ("ASYNC_SYSCALL", "SYSCALL")]

/-- All other mnemonics are keywords, as far as the table of the parser goes. -/
theorem isKeyword_of_mem_mnemonics {m : String} (hm : m ∈ mnemonics)
    (hasync : asyncForms.lookup m = none) : isKeyword m = true := by
  have hall : ∀ m ∈ mnemonics, isKeyword m = true ∨ m = "ASYNC_CALL" ∨ m = "ASYNC_SYSCALL" := by
    decide +kernel
  rcases hall m hm with h | rfl | rfl
  · exact h
  · cases hasync
  · cases hasync

def printMnemonic (m : String) : List Char :=
  match asyncForms.lookup m with
  | some word => "ASYNC ".toList ++ word.toList
  | none => m.toList

def lexemesOfMnemonic (m : String) : List Lexeme :=
  match asyncForms.lookup m with
  | some word => [.word "ASYNC", .word word]
  | none => [.word m]

theorem prints_mnemonic {m : String} (hm : m ∈ mnemonics) :
    Prints u (printMnemonic m) (lexemesOfMnemonic m) := by
  have hwords : ∀ m ∈ mnemonics, asciiWord m = true := by decide
  have hasyncs : ∀ p ∈ asyncForms, asciiWord p.2 = true := by decide
  rw [printMnemonic, lexemesOfMnemonic]
  split
  case h_1 word hlookup =>
    have hword := hasyncs _ (mem_of_lookup hlookup)
    exact .append (.word (.of_asciiWord (s := "ASYNC") (by decide)))
      (.blank (.word (.of_asciiWord hword))) (by rintro _ ⟨⟩; decide)
  case h_2 => exact .word (.of_asciiWord (hwords m hm))

/-- The name of a type. -/
def FasmType.word (t : FasmType) : String :=
  ((typeNames.find? fun p => p.2 = t).map Prod.fst).getD ""

/-- Every type but `NULL` has a name that the parser reads. -/
theorem FasmType.parse_word {t : FasmType} (h : t ≠ .null) :
    parseFasmType t.word = some t ∧ asciiWord t.word = true := by
  cases t with
  | null => exact absurd rfl h
  | int t => cases t <;> decide
  | _ => decide

/-! ## Statements -/

section

variable (u)

mutual

/-- The statements that are printed. -/
def Statement.Printable : Statement → Prop
  | .local_ decl => decl.fasmType ≠ .null ∧ IsIdent u decl.name
  | .label name _ => IsIdent u name
  | .instr instr => instr.mnemonic ∈ mnemonics ∧ ∀ v ∈ instr.operands, v.Printable u
  | .tryBlock _ _ body catchBody _ => PrintableBody body ∧ PrintableBody catchBody

def PrintableBody : List Statement → Prop
  | [] => True
  | stmt :: stmts => stmt.Printable ∧ PrintableBody stmts

end

end

mutual

/-- The lines of a statement. -/
def Statement.lines : Statement → List (List Char)
  | .local_ decl => ["LOCAL ".toList ++ (Literal.ofIndex decl.index).text ++ ", ".toList ++
      decl.fasmType.word.toList ++ ", ".toList ++ decl.name.toList]
  | .label name _ => ["LABEL ".toList ++ name.toList]
  | .instr instr => [printMnemonic instr.mnemonic ++ printOperands instr.operands]
  | .tryBlock _ _ body catchBody _ => "TRY".toList :: linesOfBody body ++
      "CATCH".toList :: linesOfBody catchBody ++ ["ENDTRY".toList]

def linesOfBody : List Statement → List (List Char)
  | [] => []
  | stmt :: stmts => stmt.lines ++ linesOfBody stmts

end

mutual

def Statement.lexemes : Statement → List Lexeme
  | .local_ decl => [.word "LOCAL", .number (.ofIndex decl.index), .comma,
      .word decl.fasmType.word, .comma, .word decl.name]
  | .label name _ => [.word "LABEL", .word name]
  | .instr instr => lexemesOfMnemonic instr.mnemonic ++ lexemesOfOperands instr.operands
  | .tryBlock _ _ body catchBody _ => .word "TRY" :: lexemesOfBody body ++
      .word "CATCH" :: lexemesOfBody catchBody ++ [.word "ENDTRY"]

def lexemesOfBody : List Statement → List Lexeme
  | [] => []
  | stmt :: stmts => stmt.lexemes ++ lexemesOfBody stmts

end

/-- The text of lines. -/
def unlines (lines : List (List Char)) : List Char := lines.flatMap fun line => line ++ ['\n']

variable (u) in
/-- The lines are cut into the lexemes. -/
def ScansLines (lines : List (List Char)) (xs : List Lexeme) : Prop := ∀ rest ls,
  Scans u rest ls → Scans u (unlines lines ++ rest) (xs ++ ls)

namespace ScansLines

variable {line : List Char} {lines lines' : List (List Char)} {xs xs' : List Lexeme}

theorem nil : ScansLines u [] [] := fun _ _ h => h

theorem append (h : ScansLines u lines xs) (h' : ScansLines u lines' xs') :
    ScansLines u (lines ++ lines') (xs ++ xs') := by
  intro rest ls hscan
  rw [unlines, List.flatMap_append, List.append_assoc, List.append_assoc]
  exact h _ _ (h' rest ls hscan)

theorem singleton (h : Prints u line xs) : ScansLines u [line] xs := by
  intro rest ls hscan
  have hline : EndsWord ('\n' :: rest) := by
    rintro _ ⟨⟩
    decide
  have hscans := h _ _ hline (.blank (by decide) hscan)
  rwa [unlines, List.flatMap_singleton, List.append_assoc]

theorem cons (h : Prints u line xs) (h' : ScansLines u lines xs') :
    ScansLines u (line :: lines) (xs ++ xs') := append (singleton h) h'

end ScansLines

theorem prints_local {decl : LocalDecl} (htype : decl.fasmType ≠ .null)
    (hname : IsIdent u decl.name) :
    Prints u ("LOCAL ".toList ++ (Literal.ofIndex decl.index).text ++ ", ".toList ++
        decl.fasmType.word.toList ++ ", ".toList ++ decl.name.toList)
      [.word "LOCAL", .number (.ofIndex decl.index), .comma, .word decl.fasmType.word, .comma,
        .word decl.name] := by
  have hcomma {text : List Char} {xs : List Lexeme} (h : Prints u text xs) :
      Prints u (", ".toList ++ text) (.comma :: xs) := .mark (by decide) rfl (.blank h)
  have hends {text : List Char} : EndsWord (", ".toList ++ text) := by
    rintro _ ⟨⟩
    decide
  have htext := Prints.append (u := u) (.word (.of_asciiWord (s := "LOCAL") (by decide))) (.blank
    (.append (.literal (.ofIndex decl.index)) (hcomma (.append
      (.word (.of_asciiWord (FasmType.parse_word htype).2)) (hcomma (.word hname)) hends)) hends))
    (by rintro _ ⟨⟩; decide)
  simpa using htext

mutual

theorem Statement.scansLines : ∀ stmt : Statement, stmt.Printable u →
    ScansLines u stmt.lines stmt.lexemes
  | .local_ decl, h => .singleton (prints_local h.1 h.2)
  | .label name _, h => .singleton (.append (.word (.of_asciiWord (s := "LABEL") (by decide)))
      (.blank (.word h)) (by rintro _ ⟨⟩; decide))
  | .instr instr, h => by
    obtain ⟨hprints, hends⟩ := prints_operands h.2
    exact .singleton (.append (prints_mnemonic h.1) hprints hends)
  | .tryBlock _ _ body catchBody _, h => by
    have hword (s : String) (hs : asciiWord s = true) : Prints u s.toList [.word s] :=
      .word (.of_asciiWord hs)
    exact .append (.append (.cons (hword "TRY" (by decide)) (scansLines_body body h.1))
      (.cons (hword "CATCH" (by decide)) (scansLines_body catchBody h.2)))
      (.singleton (hword "ENDTRY" (by decide)))

theorem scansLines_body : ∀ stmts : List Statement, PrintableBody u stmts →
    ScansLines u (linesOfBody stmts) (lexemesOfBody stmts)
  | [], _ => .nil
  | stmt :: stmts, h => .append (stmt.scansLines h.1) (scansLines_body stmts h.2)

end

/-! ## Functions -/

/-- A function without parameters. -/
def printFunction (name : String) (body : List Statement) : String :=
  String.ofList (unlines (("FUNC ".toList ++ name.toList) :: linesOfBody body ++ ["ENDF".toList]))

/-- Its text is cut into the lexemes of its statements. -/
theorem scans_printFunction {name : String} {body : List Statement} (hname : IsIdent u name)
    (hbody : PrintableBody u body) : Scans u (printFunction name body).toList
      (.word "FUNC" :: .word name :: lexemesOfBody body ++ [.word "ENDF"]) := by
  have hhead : Prints u ("FUNC ".toList ++ name.toList) [.word "FUNC", .word name] :=
    .append (.word (.of_asciiWord (s := "FUNC") (by decide))) (.blank (.word hname))
      (by rintro _ ⟨⟩; decide)
  have hlines := ScansLines.append (.cons hhead (scansLines_body body hbody))
    (.singleton (.word (.of_asciiWord (s := "ENDF") (by decide)))) [] [] .done
  rw [List.append_nil, List.append_nil] at hlines
  rwa [printFunction, String.toList_ofList]

end Fasm
