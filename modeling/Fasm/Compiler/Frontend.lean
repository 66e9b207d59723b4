import Fasm.Compiler.Emitter
import Fasm.Compiler.Turns
import Fasm.Lib.Hoare

/-!
# What the front end returns

Every turn of the lexer consumes characters and every loop of the parser consumes tokens, so
their fuel is enough, and they return tokens or a tree, or an `Err`.  The tokens end with the
end of the file, and the labels of a `TRY` block in the tree are made of its line.
-/

namespace Fasm

/-- The failure is an `Err`: neither a recursion without end nor a panic. -/
def CompileFail.IsErr (e : CompileFail) : Prop := ∃ msg, e = .error msg

theorem isErr_lineError {α : Type} {ln : Nat} {msg : String} {e : CompileFail}
    (h : (lineError ln msg : Except CompileFail α) = .error e) : e.IsErr := by
  cases h
  exact ⟨_, rfl⟩

/-! ## Tokens -/

/-- Lexing gives tokens that end with the end of the file, or an `Err`. -/
structure Lexes (r : Except CompileFail (List Token)) : Prop where
  raises : Raises CompileFail.IsErr r
  ends : ∀ tokens, r = .ok tokens → ∃ init line, tokens = init ++ [⟨.eof, line⟩]

namespace Lexes

theorem lineError {ln : Nat} {msg : String} : Lexes (lineError ln msg) :=
  ⟨fun _ => isErr_lineError, nofun⟩

theorem ite {c : Prop} [Decidable c] {x y : Except CompileFail (List Token)} (hx : c → Lexes x)
    (hy : ¬ c → Lexes y) : Lexes (if c then x else y) := by
  split
  case isTrue h => exact hx h
  case isFalse h => exact hy h

/-- A number in front of what follows it. -/
theorem bind {r : Except CompileFail (TokenKind × List Char)}
    {k : TokenKind × List Char → Except CompileFail (List Token)}
    (hr : Raises CompileFail.IsErr r)
    (hk : ∀ kind rest, r = .ok (kind, rest) → Lexes (k (kind, rest))) : Lexes (r >>= k) := by
  cases r with
  | ok p => exact hk p.1 p.2 rfl
  | error e => exact ⟨Raises.error.mpr (Raises.error.mp hr), nofun⟩

/-- A token in front of the others. -/
theorem cons {kind : TokenKind} {line : Nat} {r : Except CompileFail (List Token)}
    (h : Lexes r) : Lexes (do return ⟨kind, line⟩ :: (← r)) := by
  constructor
  · exact h.raises.bind fun _ => .pure _
  · intro tokens htokens
    obtain ⟨tokens', htokens', heq⟩ := bind_eq_ok htokens
    obtain ⟨init, line', rfl⟩ := h.ends tokens' htokens'
    cases heq
    exact ⟨⟨kind, line⟩ :: init, line', rfl⟩

end Lexes

theorem length_dropWhile_le {α : Type} (p : α → Bool) (l : List α) :
    (l.dropWhile p).length ≤ l.length :=
  (List.dropWhile_suffix p).length_le

/-- The rest of a string literal is shorter. -/
theorem lexString_length : ∀ {cs s rest : List Char}, lexString cs = some (s, rest) →
    rest.length < cs.length
  | [], s, rest, h => by cases h
  | c :: cs, s, rest, h => by
    rw [lexString.eq_def] at h
    simp only at h
    split at h
    case isTrue => cases h; exact Nat.lt_succ_self _
    case isFalse =>
      split at h
      case isTrue =>
        cases cs with
        | nil => cases h
        | cons e cs =>
          obtain ⟨⟨s', rest'⟩, hlex, heq⟩ := Option.map_eq_some_iff.mp h
          cases heq
          have hlt := lexString_length hlex
          simp only [List.length_cons]
          omega
      case isFalse =>
        obtain ⟨⟨s', rest'⟩, hlex, heq⟩ := Option.map_eq_some_iff.mp h
        cases heq
        have hlt := lexString_length hlex
        simp only [List.length_cons]
        omega

/-- Reading a number fails with an `Err`, if at all. -/
theorem lexNumber_raises (negative : Bool) (line : Nat) (cs : List Char) :
    Raises CompileFail.IsErr (lexNumber negative line cs) := by
  simp only [lexNumber]
  split
  · cases parseHex (cs.tail.tail.takeWhile isHexDigit) with
    | none => exact fun _ => isErr_lineError
    | some n => exact .ok _
  · split
    · exact .ok _
    · cases parseI64 negative (cs.takeWhile Char.isDigit) with
      | none => exact fun _ => isErr_lineError
      | some n => exact .ok _

/-- A number that starts with a digit consumes it. -/
theorem lexNumber_length {negative : Bool} {line : Nat} {c : Char} {cs rest : List Char}
    {kind : TokenKind} (h : lexNumber negative line (c :: cs) = .ok (kind, rest))
    (hc : c.isDigit = true) : rest.length ≤ cs.length := by
  have hdrop : ((c :: cs).dropWhile Char.isDigit).length ≤ cs.length := by
    rw [List.dropWhile_cons_of_pos hc]
    exact length_dropWhile_le _ _
  simp only [lexNumber] at h
  split at h
  case isTrue =>
    split at h
    · cases h
      refine Nat.le_trans (length_dropWhile_le _ _) ?_
      rw [List.tail_cons, List.length_tail]
      omega
    · cases h
  case isFalse =>
    split at h
    case h_1 rest' heq =>
      cases h
      rw [heq, List.length_cons] at hdrop
      exact Nat.le_trans (length_dropWhile_le _ _) (Nat.le_of_succ_le hdrop)
    case h_2 =>
      split at h
      · cases h
        exact hdrop
      · cases h

theorem isIdentChar_of_isIdentStart {u : Unicode} {c : Char} (h : isIdentStart u c = true) :
    isIdentChar u c = true := by
  simp only [isIdentStart, isIdentChar, Bool.or_eq_true] at h ⊢
  exact h.imp_left (.imp_left (u.alphanumeric_of_alphabetic c))

/-- Lexing needs no more turns than there are characters, and one. -/
theorem lexFrom_lexes (u : Unicode) : ∀ (fuel line : Nat) (cs : List Char), cs.length < fuel →
    Lexes (lexFrom u fuel line cs)
  | fuel + 1, line, [], _ =>
    ⟨.ok _, fun tokens h => by cases h; exact ⟨[], line, rfl⟩⟩
  | fuel + 1, line, c :: cs, hfuel => by
    have hcs : cs.length < fuel := Nat.lt_of_succ_lt_succ hfuel
    have hrest : ∀ {rest : List Char} (line : Nat), rest.length ≤ cs.length →
        Lexes (lexFrom u fuel line rest) := fun line hle =>
      lexFrom_lexes u fuel line _ (Nat.lt_of_le_of_lt hle hcs)
    rw [lexFrom]
    refine .ite (fun _ => hrest _ (Nat.le_refl _)) fun _ => ?_
    refine .ite (fun _ => hrest _ (Nat.le_refl _)) fun _ => ?_
    refine .ite (fun _ => .ite (fun _ => ?_) fun _ => .lineError) fun _ => ?_
    · cases hcomment : cs.dropWhile fun c => decide (c ≠ '\n') with
      | nil => exact hrest _ (Nat.zero_le _)
      | cons d rest =>
        have hle := length_dropWhile_le (fun c : Char => decide (c ≠ '\n')) cs
        rw [hcomment, List.length_cons] at hle
        exact hrest _ (Nat.le_of_succ_le hle)
    refine .ite (fun _ => (hrest _ (Nat.le_refl _)).cons) fun _ => ?_
    refine .ite (fun _ => (hrest _ (Nat.le_refl _)).cons) fun _ => ?_
    refine .ite (fun _ => (hrest _ (Nat.le_refl _)).cons) fun _ => ?_
    refine .ite (fun _ => ?_) fun _ => ?_
    · cases hstr : lexString cs with
      | none => exact .lineError
      | some r => exact (hrest _ (Nat.le_of_lt (lexString_length hstr))).cons
    refine .ite (fun _ => .ite (fun hdigit => ?_) fun _ => .lineError) fun _ => ?_
    · refine .bind (lexNumber_raises true line cs) fun kind rest hnum => ?_
      cases cs with
      | nil => cases hdigit
      | cons d cs => exact (hrest _ (Nat.le_succ_of_le (lexNumber_length hnum hdigit))).cons
    refine .ite (fun hdigit => ?_) fun _ => ?_
    · refine .bind (lexNumber_raises false line (c :: cs)) fun kind rest hnum => ?_
      exact (hrest _ (lexNumber_length hnum hdigit)).cons
    refine .ite (fun hstart => ?_) fun _ => .lineError
    refine (hrest _ ?_).cons
    rw [List.dropWhile_cons_of_pos (isIdentChar_of_isIdentStart hstart)]
    exact length_dropWhile_le _ _

theorem tokenize_lexes (u : Unicode) (source : String) : Lexes (tokenize u source) :=
  lexFrom_lexes u _ 1 _ (Nat.lt_succ_self _)

/-! ## Cursors -/

/-- The number of tokens after the current one. -/
def Cursor.left (c : Cursor) : Nat := c.rest.length

/-- The last token is the end of the file. -/
def Cursor.Ends (c : Cursor) : Prop := (c.rest.getLastD c.cur).kind = .eof

/-- Where parsing has come to: not before `c`. -/
def Cursor.Reached (c : Cursor) {α : Type} : α → Cursor → Prop := fun _ c' =>
  c'.Ends ∧ c'.left ≤ c.left

/-- Where parsing has come to: after `c`. -/
def Cursor.Passed (c : Cursor) {α : Type} : α → Cursor → Prop := fun _ c' =>
  c'.Ends ∧ c'.left < c.left

namespace Cursor.Reached

variable {α β : Type} {c c' c'' : Cursor}

theorem trans {b : β} (h : c'.left ≤ c.left) (h' : c'.Reached b c'') : c.Reached b c'' :=
  ⟨h'.1, Nat.le_trans h'.2 h⟩

theorem passed {b : β} (h : c'.left < c.left) (h' : c'.Reached b c'') : c.Passed b c'' :=
  ⟨h'.1, Nat.lt_of_le_of_lt h'.2 h⟩

end Cursor.Reached

/-- Before the end of the file there are tokens left. -/
theorem Cursor.Ends.left_pos {c : Cursor} (h : c.Ends) (hcur : c.cur.kind ≠ .eof) : 0 < c.left := by
  obtain ⟨cur, rest⟩ := c
  cases rest with
  | nil => exact absurd h hcur
  | cons t rest => exact Nat.succ_pos _

namespace ParseM

variable {u : Unicode} {α β : Type} {c : Cursor} {Q : α → Cursor → Prop}

/-- Parsing by `x` from `c` returns a result in `Q`, or an `Err`. -/
abbrev Parses (x : ParseM α) (c : Cursor) (Q : α → Cursor → Prop) : Prop :=
  Meets CompileFail.IsErr x c Q

theorem parses_peek : Parses peek c fun t c' => c.cur = t ∧ c = c' := ⟨rfl, rfl⟩

theorem parses_line : Parses line c fun _ c' => c = c' := rfl

theorem parses_fail {ln : Nat} {msg : String} : Parses (fail ln msg) c Q := ⟨_, rfl⟩

theorem parses_unexpected {t : Token} {expected : String} :
    Parses (unexpected u t expected) c Q := parses_fail

/-- One token is consumed, if there is one. -/
theorem parses_advance (hc : c.Ends) :
    Parses advance c fun t c' => t = c.cur ∧ c'.Ends ∧ c'.left = c.left - 1 := by
  obtain ⟨cur, rest⟩ := c
  cases rest with
  | nil => exact ⟨rfl, hc, rfl⟩
  | cons t rest =>
    rw [Cursor.Ends, List.getLastD_cons] at hc
    exact ⟨rfl, hc, rfl⟩

/-- Before the end of the file a token is consumed. -/
theorem parses_advance_lt (hc : c.Ends) (hcur : c.cur.kind ≠ .eof) :
    Parses advance c c.Passed :=
  (parses_advance hc).mono fun t c' h => ⟨h.2.1, by
    have hpos := hc.left_pos hcur
    omega⟩

theorem parses_expectIdent (hc : c.Ends) : Parses (expectIdent u) c c.Reached := by
  refine (parses_advance hc).bind ?_
  rintro t c' ⟨-, hc', hleft⟩
  split
  · exact ⟨hc', by omega⟩
  · exact parses_unexpected

theorem parses_expectComma (hc : c.Ends) : Parses (expectComma u) c c.Reached := by
  refine (parses_advance hc).bind ?_
  rintro t c' ⟨-, hc', hleft⟩
  split
  · exact ⟨hc', by omega⟩
  · exact parses_unexpected

theorem parses_expectString (hc : c.Ends) : Parses (expectString u) c c.Reached := by
  refine (parses_advance hc).bind ?_
  rintro t c' ⟨-, hc', hleft⟩
  split
  · exact ⟨hc', by omega⟩
  · exact parses_unexpected

theorem parses_parseType (hc : c.Ends) : Parses (parseType u) c c.Reached := by
  refine (parses_advance hc).bind ?_
  rintro t c' ⟨-, hc', hleft⟩
  split
  · split
    · exact ⟨hc', by omega⟩
    · exact parses_fail
  · exact parses_unexpected

theorem parses_parseU32 (hc : c.Ends) : Parses (parseU32 u) c c.Reached := by
  refine (parses_advance hc).bind ?_
  rintro t c' ⟨-, hc', hleft⟩
  split
  · split
    · exact ⟨hc', by omega⟩
    · exact parses_unexpected
  · exact ⟨hc', by omega⟩
  · exact parses_unexpected

theorem parses_parseU8 (hc : c.Ends) : Parses (parseU8 u) c c.Reached := by
  refine (parses_parseU32 hc).bind ?_
  intro v c' h
  split
  · exact Meets.throw ⟨_, rfl⟩
  · exact h

/-- A value is at least one token. -/
theorem parses_parseValue (hc : c.Ends) : Parses (parseValue u) c c.Passed := by
  rw [parseValue]
  refine (parses_advance hc).bind ?_
  rintro t c' ⟨ht, hc', hleft⟩
  have hpassed : t.kind ≠ .eof → c'.left < c.left := fun hcur => by
    have hpos := hc.left_pos (ht ▸ hcur)
    omega
  cases hkind : t.kind with
  | ident s =>
    have hlt := hpassed (fun h => nomatch hkind.symm.trans h)
    refine .ite (fun _ => .pure ⟨hc', hlt⟩) fun _ => ?_
    refine .ite (fun _ => .pure ⟨hc', hlt⟩) fun _ => ?_
    exact .ite (fun _ => .pure ⟨hc', hlt⟩) fun _ => .pure ⟨hc', hlt⟩
  | ampersand =>
    have hlt := hpassed (fun h => nomatch hkind.symm.trans h)
    refine (parses_expectIdent hc').bind ?_
    intro name c'' h
    exact h.passed hlt
  | comma | dot | eof => exact parses_unexpected
  | _ => exact .pure ⟨hc', hpassed (fun h => nomatch hkind.symm.trans h)⟩

/-- What a turn has done: it goes on with what `P` says, after `c`, or it ends the loop. -/
def Turn.Advances {ρ : Type} (P : α → Prop) (c : Cursor) : Turn α ρ → Cursor → Prop
  | .again a, c' => P a ∧ c.Passed a c'
  | .done r, c' => c.Reached r c'

/-- A turn that reads an operand and a comma goes on. -/
theorem parses_operandTurn (hc : c.Ends) :
    Parses (operandTurn u) c (Turn.Advances (fun _ => True) c) := by
  rw [operandTurn]
  refine parses_peek.bind ?_
  rintro _ _ ⟨rfl, rfl⟩
  refine Meets.ite (fun _ => ⟨hc, Nat.le_refl _⟩) fun _ => ?_
  refine (parses_parseValue hc).bind ?_
  rintro op c₁ ⟨hc₁, hlt₁⟩
  refine parses_peek.bind ?_
  rintro _ _ ⟨rfl, rfl⟩
  refine Meets.ite (fun _ => ?_) fun _ => ⟨hc₁, Nat.le_of_lt hlt₁⟩
  refine (parses_advance hc₁).bind ?_
  rintro - c₂ ⟨-, hc₂, hleft₂⟩
  exact ⟨trivial, hc₂, by omega⟩

/-- A list of operands is read with as much fuel as there are tokens. -/
theorem parses_parseOperandList : ∀ (fuel : Nat) {c : Cursor}, c.Ends → c.left < fuel →
    Parses (parseOperandList u fuel) c c.Reached
  | fuel + 1, c, hc, hfuel => by
    rw [parseOperandList_succ]
    refine (parses_operandTurn hc).bind ?_
    rintro (op | ops) c₁ hturn
    · obtain ⟨-, hc₁, hlt⟩ := hturn
      refine (parses_parseOperandList fuel hc₁ (by omega)).bind ?_
      intro ops c₂ h
      exact h.trans (Nat.le_of_lt hlt)
    · exact hturn

/-! ## Statements -/

end ParseM

mutual

/-- The labels of `TRY` blocks are made of their lines. -/
def Statement.Labelled : Statement → Prop
  | .local_ _ => True
  | .label _ _ => True
  | .instr _ => True
  | .tryBlock catchLabel endLabel body catchBody line =>
    catchLabel = "__catch_" ++ toString line ∧ endLabel = "__endtry_" ++ toString line ∧
      LabelledAll body ∧ LabelledAll catchBody

/-- The same for statements. -/
def LabelledAll : List Statement → Prop
  | [] => True
  | stmt :: stmts => stmt.Labelled ∧ LabelledAll stmts

end

namespace ParseM

variable {u : Unicode}

/-- A turn of a `TRY` block goes on if the statement that it may start with is read. -/
theorem parses_tryTurn {ln fuel : Nat} {c : Cursor} (hc : c.Ends)
    (hstmt : Parses (parseStatement u fuel) c fun stmt c' => stmt.Labelled ∧ c.Passed stmt c') :
    Parses (tryTurn u ln fuel) c
      (Turn.Advances (fun a => ∀ stmt, a = some stmt → stmt.Labelled) c) := by
  rw [tryTurn]
  refine parses_peek.bind ?_
  rintro _ _ ⟨rfl, rfl⟩
  refine .ite (fun _ => parses_fail) fun hcur => ?_
  refine .ite (fun _ => ?_) fun _ => ?_
  · refine (parses_advance_lt hc hcur).bind ?_
    rintro _ c₁ hpassed
    refine .pure ⟨?_, hpassed⟩
    rintro _ ⟨⟩
  refine .ite (fun _ => ?_) fun _ => ?_
  · refine (parses_advance_lt hc hcur).bind ?_
    rintro - c₁ ⟨hc₁, hlt⟩
    exact .pure ⟨hc₁, Nat.le_of_lt hlt⟩
  · refine hstmt.bind ?_
    intro stmt c₁ h
    refine .pure ⟨?_, h.2⟩
    rintro _ ⟨⟩
    exact h.1

mutual

/-- A statement is at least one token, and is read with three units of fuel for each token. -/
theorem parses_parseStatement : ∀ (fuel : Nat) {c : Cursor}, c.Ends → 3 * c.left + 3 ≤ fuel →
    Parses (parseStatement u fuel) c fun stmt c' => stmt.Labelled ∧ c.Passed stmt c'
  | fuel + 1, c, hc, hfuel => by
    rw [parseStatement]
    refine parses_line.bind ?_
    rintro ln _ rfl
    refine parses_peek.bind ?_
    rintro _ _ ⟨rfl, rfl⟩
    split
    case h_2 => exact parses_unexpected
    case h_1 kw hkind =>
      have hcur : c.cur.kind ≠ .eof := fun h => nomatch hkind.symm.trans h
      refine Meets.ite (fun _ => parses_parseTryBlock fuel hc hcur (by omega)) fun _ => ?_
      refine Meets.ite (fun _ => ?_) fun _ => ?_
      · refine (parses_advance_lt hc hcur).bind ?_
        rintro - c₁ ⟨hc₁, hlt⟩
        refine (parses_parseU8 hc₁).bind ?_
        rintro index c₂ ⟨hc₂, hle₂⟩
        refine (parses_expectComma hc₂).bind ?_
        rintro - c₃ ⟨hc₃, hle₃⟩
        refine (parses_parseType hc₃).bind ?_
        rintro fasmType c₄ ⟨hc₄, hle₄⟩
        refine (parses_expectComma hc₄).bind ?_
        rintro - c₅ ⟨hc₅, hle₅⟩
        refine (parses_expectIdent hc₅).bind ?_
        rintro name c₆ ⟨hc₆, hle₆⟩
        exact ⟨trivial, hc₆, by omega⟩
      refine Meets.ite (fun _ => ?_) fun _ => ?_
      · refine (parses_advance_lt hc hcur).bind ?_
        rintro - c₁ ⟨hc₁, hlt⟩
        refine (parses_expectIdent hc₁).bind ?_
        rintro name c₂ ⟨hc₂, hle₂⟩
        exact ⟨trivial, hc₂, by omega⟩
      refine (parses_advance_lt hc hcur).bind ?_
      rintro - c₁ ⟨hc₁, hlt⟩
      refine Meets.ite (fun _ => ?_) fun _ => ?_
      · refine (parses_expectIdent hc₁).bind ?_
        rintro name c₂ ⟨hc₂, hle₂⟩
        refine (parses_parseOperandList fuel hc₂ (by omega)).bind ?_
        rintro ops c₃ ⟨hc₃, hle₃⟩
        exact ⟨trivial, hc₃, by omega⟩
      · refine (parses_parseOperandList fuel hc₁ (by omega)).bind ?_
        rintro ops c₂ ⟨hc₂, hle₂⟩
        exact ⟨trivial, hc₂, by omega⟩

theorem parses_parseTryBlock : ∀ (fuel : Nat) {c : Cursor}, c.Ends → c.cur.kind ≠ .eof →
    3 * c.left + 2 ≤ fuel →
    Parses (parseTryBlock u fuel) c fun stmt c' => stmt.Labelled ∧ c.Passed stmt c'
  | fuel + 1, c, hc, hcur, hfuel => by
    rw [parseTryBlock]
    refine parses_line.bind ?_
    rintro ln _ rfl
    refine (parses_advance_lt hc hcur).bind ?_
    rintro - c₁ ⟨hc₁, hlt⟩
    refine (parses_parseTryBody ln false fuel hc₁ (by omega)).bind ?_
    rintro ⟨body, catchBody⟩ c₂ ⟨hbody, hcatch, hc₂, hle⟩
    exact ⟨⟨rfl, rfl, hbody, hcatch⟩, hc₂, by omega⟩

theorem parses_parseTryBody (ln : Nat) (inCatch : Bool) : ∀ (fuel : Nat) {c : Cursor}, c.Ends →
    3 * c.left + 4 ≤ fuel → Parses (parseTryBody u ln inCatch fuel) c fun bodies c' =>
      LabelledAll bodies.1 ∧ LabelledAll bodies.2 ∧ c.Reached bodies c'
  | fuel + 1, c, hc, hfuel => by
    rw [parseTryBody_succ]
    refine (parses_tryTurn hc (parses_parseStatement fuel hc (by omega))).bind ?_
    rintro ((_ | stmt) | _) c₁ hturn
    · obtain ⟨-, hc₁, hlt⟩ := hturn
      refine (parses_parseTryBody ln true fuel hc₁ (by omega)).mono ?_
      rintro bodies c₂ ⟨hbody, hcatch, hreached⟩
      exact ⟨hbody, hcatch, hreached.trans (Nat.le_of_lt hlt)⟩
    · obtain ⟨hstmt, hc₁, hlt⟩ := hturn
      refine (parses_parseTryBody ln inCatch fuel hc₁ (by omega)).bind ?_
      rintro ⟨body, catchBody⟩ c₂ ⟨hbody, hcatch, hreached⟩
      have hreached' := hreached.trans (Nat.le_of_lt hlt)
      cases inCatch with
      | true => exact ⟨hbody, ⟨hstmt stmt rfl, hcatch⟩, hreached'⟩
      | false => exact ⟨⟨hstmt stmt rfl, hbody⟩, hcatch, hreached'⟩
    · exact ⟨trivial, trivial, hturn⟩

end

/-! ## Programs -/

theorem parses_parseParam {c : Cursor} (hc : c.Ends) (hcur : c.cur.kind ≠ .eof) :
    Parses (parseParam u) c c.Passed := by
  rw [parseParam]
  refine parses_line.bind ?_
  rintro ln _ rfl
  refine (parses_advance_lt hc hcur).bind ?_
  rintro - c₁ ⟨hc₁, hlt₁⟩
  refine (parses_parseValue hc₁).bind ?_
  rintro key c₂ ⟨hc₂, hlt₂⟩
  refine (parses_expectComma hc₂).bind ?_
  rintro - c₃ ⟨hc₃, hle₃⟩
  refine (parses_parseType hc₃).bind ?_
  rintro fasmType c₄ ⟨hc₄, hle₄⟩
  refine (parses_expectComma hc₄).bind ?_
  rintro - c₅ ⟨hc₅, hle₅⟩
  refine (parses_expectIdent hc₅).bind ?_
  rintro name c₆ ⟨hc₆, hle₆⟩
  refine (parses_expectComma hc₆).bind ?_
  rintro - c₇ ⟨hc₇, hle₇⟩
  refine (parses_expectIdent hc₇).bind ?_
  rintro reqStr c₈ ⟨hc₈, hle₈⟩
  refine .ite (fun _ => .pure ⟨hc₈, by omega⟩) fun _ => ?_
  exact .ite (fun _ => .pure ⟨hc₈, by omega⟩) fun _ => parses_fail

theorem parses_functionTurn {ln fuel : Nat} {name : String} {c : Cursor} (hc : c.Ends)
    (hfuel : 3 * c.left + 3 ≤ fuel) : Parses (functionTurn u ln name fuel) c
      (Turn.Advances (fun a => ∀ stmt, a = .inr stmt → stmt.Labelled) c) := by
  rw [functionTurn]
  refine parses_peek.bind ?_
  rintro _ _ ⟨rfl, rfl⟩
  refine .ite (fun _ => parses_fail) fun hcur => ?_
  refine .ite (fun _ => ?_) fun _ => ?_
  · refine (parses_advance_lt hc hcur).bind ?_
    rintro - c₁ ⟨hc₁, hlt⟩
    exact .pure ⟨hc₁, Nat.le_of_lt hlt⟩
  refine .ite (fun _ => ?_) fun _ => ?_
  · refine (parses_parseParam hc hcur).bind ?_
    rintro param c₁ hpassed
    refine .pure ⟨?_, hpassed⟩
    rintro _ ⟨⟩
  · refine (parses_parseStatement fuel hc hfuel).bind ?_
    intro stmt c₁ h
    refine .pure ⟨?_, h.2⟩
    rintro _ ⟨⟩
    exact h.1

theorem parses_parseFunctionBody (ln : Nat) (name : String) : ∀ (fuel : Nat) {c : Cursor}, c.Ends →
    3 * c.left + 4 ≤ fuel → Parses (parseFunctionBody u ln name fuel) c fun r c' =>
      LabelledAll r.2 ∧ c.Reached r c'
  | fuel + 1, c, hc, hfuel => by
    rw [parseFunctionBody_succ]
    refine (parses_functionTurn hc (by omega)).bind ?_
    rintro ((param | stmt) | _) c₁ hturn
    · obtain ⟨-, hc₁, hlt⟩ := hturn
      refine (parses_parseFunctionBody ln name fuel hc₁ (by omega)).bind ?_
      rintro ⟨params, body⟩ c₂ ⟨hbody, hreached⟩
      exact .pure ⟨hbody, hreached.trans (Nat.le_of_lt hlt)⟩
    · obtain ⟨hstmt, hc₁, hlt⟩ := hturn
      refine (parses_parseFunctionBody ln name fuel hc₁ (by omega)).bind ?_
      rintro ⟨params, body⟩ c₂ ⟨hbody, hreached⟩
      exact .pure ⟨⟨hstmt stmt rfl, hbody⟩, hreached.trans (Nat.le_of_lt hlt)⟩
    · exact ⟨trivial, hturn⟩

theorem parses_parseFunction {fuel : Nat} {c : Cursor} (hc : c.Ends) (hcur : c.cur.kind ≠ .eof)
    (hfuel : 3 * c.left + 1 ≤ fuel) : Parses (parseFunction u fuel) c fun f c' =>
      LabelledAll f.body ∧ c.Passed f c' := by
  rw [parseFunction]
  refine parses_line.bind ?_
  rintro ln _ rfl
  refine (parses_advance_lt hc hcur).bind ?_
  rintro - c₁ ⟨hc₁, hlt⟩
  refine (parses_expectIdent hc₁).bind ?_
  rintro name c₂ ⟨hc₂, hle⟩
  refine (parses_parseFunctionBody ln name fuel hc₂ (by omega)).bind ?_
  rintro ⟨params, body⟩ c₃ ⟨hbody, hc₃, hle'⟩
  exact .pure ⟨hbody, hc₃, by omega⟩

/-- An item is read with labelled functions. -/
theorem parses_programTurn {fuel : Nat} {c : Cursor} (hc : c.Ends)
    (hfuel : 3 * c.left + 1 ≤ fuel) : Parses (programTurn u fuel) c
      (Turn.Advances (fun add => ∀ prog : ProgramAst, (∀ f ∈ prog.functions, LabelledAll f.body) →
        ∀ f ∈ (add prog).functions, LabelledAll f.body) c) := by
  rw [programTurn]
  refine parses_line.bind ?_
  rintro ln _ rfl
  refine parses_peek.bind ?_
  rintro _ _ ⟨rfl, rfl⟩
  cases hkind : c.cur.kind with
  | eof => exact .pure ⟨hc, Nat.le_refl _⟩
  | ident kw =>
    have hcur : c.cur.kind ≠ .eof := fun h => nomatch hkind.symm.trans h
    refine .ite (fun _ => ?_) fun _ => ?_
    · refine (parses_advance_lt hc hcur).bind ?_
      rintro - c₁ ⟨hc₁, hlt⟩
      refine (parses_expectIdent hc₁).bind ?_
      rintro name c₂ ⟨hc₂, hle₂⟩
      refine (parses_expectComma hc₂).bind ?_
      rintro - c₃ ⟨hc₃, hle₃⟩
      refine (parses_parseValue hc₃).bind ?_
      rintro value c₄ ⟨hc₄, hlt₄⟩
      exact .pure ⟨fun prog hprog => hprog, hc₄, by omega⟩
    refine .ite (fun _ => ?_) fun _ => ?_
    · refine (parses_advance_lt hc hcur).bind ?_
      rintro - c₁ ⟨hc₁, hlt⟩
      refine (parses_expectString hc₁).bind ?_
      rintro path c₂ ⟨hc₂, hle₂⟩
      refine (parses_expectIdent hc₂).bind ?_
      rintro - c₃ ⟨hc₃, hle₃⟩
      refine (parses_expectIdent hc₃).bind ?_
      rintro alias_ c₄ ⟨hc₄, hle₄⟩
      exact .pure ⟨fun prog hprog => hprog, hc₄, by omega⟩
    refine .ite (fun _ => ?_) fun _ => ?_
    · refine (parses_advance_lt hc hcur).bind ?_
      rintro - c₁ ⟨hc₁, hlt⟩
      refine (parses_parseU32 hc₁).bind ?_
      rintro index c₂ ⟨hc₂, hle₂⟩
      refine (parses_expectComma hc₂).bind ?_
      rintro - c₃ ⟨hc₃, hle₃⟩
      refine (parses_parseType hc₃).bind ?_
      rintro fasmType c₄ ⟨hc₄, hle₄⟩
      refine (parses_expectComma hc₄).bind ?_
      rintro - c₅ ⟨hc₅, hle₅⟩
      refine (parses_parseValue hc₅).bind ?_
      rintro init c₆ ⟨hc₆, hlt₆⟩
      exact .pure ⟨fun prog hprog => hprog, hc₆, by omega⟩
    refine .ite (fun _ => ?_) fun _ => parses_fail
    refine (parses_parseFunction hc hcur hfuel).bind ?_
    rintro func c₁ ⟨hfunc, hpassed⟩
    refine .pure ⟨fun prog hprog => ?_, hpassed⟩
    rintro f (_ | ⟨_, hf⟩)
    · exact hfunc
    · exact hprog f hf
  | _ => exact parses_fail

theorem parses_parseProgram : ∀ (fuel : Nat) {c : Cursor}, c.Ends → 3 * c.left + 2 ≤ fuel →
    Parses (parseProgram u fuel) c fun prog _ => ∀ f ∈ prog.functions, LabelledAll f.body
  | fuel + 1, c, hc, hfuel => by
    rw [parseProgram_succ]
    refine (parses_programTurn hc (by omega)).bind ?_
    rintro (add | _) c₁ hturn
    · obtain ⟨hadd, hc₁, hlt⟩ := hturn
      refine (parses_parseProgram fuel hc₁ (by omega)).bind ?_
      intro prog _ hprog
      exact .pure (hadd prog hprog)
    · exact .pure nofun

end ParseM

/-- What parsing tokens that end with the end of the file returns. -/
theorem parse_meets_eof (u : Unicode) (init : List Token) (line : Nat) :
    Raises CompileFail.IsErr (parse u (init ++ [⟨.eof, line⟩])) ∧
      ∀ ast, parse u (init ++ [⟨.eof, line⟩]) = .ok ast →
        ∀ f ∈ ast.functions, LabelledAll f.body := by
  obtain ⟨t, rest, hcons⟩ : ∃ t rest, init ++ [⟨.eof, line⟩] = t :: rest := by
    cases init with
    | nil => exact ⟨_, [], rfl⟩
    | cons t init => exact ⟨t, _, rfl⟩
  have hends : Cursor.Ends ⟨t, rest⟩ := by
    have hlast := congrArg (fun l => l.getLastD t) hcons
    simp only [List.getLastD_concat, List.getLastD_cons] at hlast
    rw [Cursor.Ends, ← hlast]
  have hparse := ParseM.parses_parseProgram (u := u) (3 * (rest.length + 1) + 3) hends
    (by simp only [Cursor.left]; omega)
  rw [hcons, parse]
  constructor
  · refine Raises.bind (fun e he => hparse.of_error he) fun _ => .pure _
  · intro ast hast
    obtain ⟨⟨prog, c⟩, hrun, hast⟩ := bind_eq_ok hast
    cases hast
    exact hparse.of_ok hrun

/-- What parsing the tokens of a source returns. -/
theorem parse_meets {u : Unicode} {source : String} {tokens : List Token}
    (htokens : tokenize u source = .ok tokens) :
    Raises CompileFail.IsErr (parse u tokens) ∧
      ∀ ast, parse u tokens = .ok ast → ∀ f ∈ ast.functions, LabelledAll f.body := by
  obtain ⟨init, line, rfl⟩ := (tokenize_lexes u source).ends tokens htokens
  exact parse_meets_eof u init line

/-! ## Validation -/

section Validation

variable {E : CompileFail → Prop}

/-- A loop without a state raises what its turns raise. -/
theorem Raises.forIn {ε α : Type} {E : ε → Prop} {f : α → PUnit → Except ε (ForInStep PUnit)}
    (hf : ∀ a b, Raises E (f a b)) : ∀ l : List α, Raises E (forIn l ⟨⟩ f)
  | [] => .pure _
  | a :: l => by
    rw [List.forIn_cons]
    refine (hf a ⟨⟩).bind fun r => ?_
    cases r with
    | done b => exact .pure _
    | yield b => exact Raises.forIn hf l

theorem raises_lineError {α : Type} (ln : Nat) (msg : String) :
    Raises CompileFail.IsErr (lineError ln msg : Except CompileFail α) := fun _ => isErr_lineError

theorem collectFunctions_raises : ∀ (fs : List Function) (names : List String),
    Raises CompileFail.IsErr (collectFunctions fs names)
  | [], _ => .ok _
  | f :: fs, names => by
    rw [collectFunctions]
    split
    · exact raises_lineError _ _
    · exact collectFunctions_raises fs _

mutual

theorem collectLabelsOf_raises : ∀ (stmt : Statement) (labels : List String),
    Raises CompileFail.IsErr (collectLabelsOf stmt labels)
  | .local_ _, _ => .ok _
  | .instr _, _ => .ok _
  | .label _ _, _ => by
    rw [collectLabelsOf]
    split
    · exact raises_lineError _ _
    · exact .ok _
  | .tryBlock _ _ body catchBody _, labels =>
    (collectLabels_raises body labels).bind fun _ => collectLabels_raises catchBody _

theorem collectLabels_raises : ∀ (stmts : List Statement) (labels : List String),
    Raises CompileFail.IsErr (collectLabels stmts labels)
  | [], _ => .ok _
  | stmt :: stmts, labels =>
    (collectLabelsOf_raises stmt labels).bind fun _ => collectLabels_raises stmts _

end

theorem validateInstr_raises (scope : Scope) (declared : List String) (tmpDepth : Nat)
    (instr : Instr) : Raises CompileFail.IsErr (validateInstr scope declared tmpDepth instr) := by
  unfold validateInstr
  extract_lets derefs
  have hderefs : ∀ r, Raises CompileFail.IsErr (derefs r) := by
    intro r
    refine Raises.bind (Raises.forIn (fun op _ => ?_) _) fun _ => .pure _
    cases op with
    | deref name =>
      simp only
      split
      · exact (raises_lineError _ _).bind fun _ => .pure _
      · exact .pure _
    | _ => exact .pure _
  split
  · rename_i target _
    have htarget : ∀ r, Raises CompileFail.IsErr (target r) := by
      intro r
      simp only [target]
      split
      · split
        · exact (raises_lineError _ _).bind hderefs
        · exact hderefs ()
      · exact hderefs ()
    split
    · exact (raises_lineError _ _).bind htarget
    · exact htarget ()
  split
  · split
    · split
      · exact (raises_lineError _ _).bind hderefs
      · exact hderefs ()
    · exact hderefs ()
  · exact hderefs ()

mutual

theorem validateStatement_raises (scope : Scope) : ∀ (stmt : Statement) (st : List String × Nat),
    Raises CompileFail.IsErr (validateStatement scope stmt st)
  | .local_ _, _ => .ok _
  | .label _ _, _ => .ok _
  | .instr instr, (declared, tmpDepth) => by
    have hclose : ∀ depth : Nat, Raises CompileFail.IsErr
        (if depth = 0 then lineError instr.line "END_TMP without TMP_BLOCK"
          else pure (declared, depth - 1)) := by
      intro depth
      split
      · exact raises_lineError _ _
      · exact .pure _
    rw [validateStatement]
    refine (validateInstr_raises scope declared _ instr).bind fun _ => ?_
    by_cases hend : instr.mnemonic = "END_TMP"
    · rw [if_pos hend]
      exact hclose _
    · rw [if_neg hend]
      exact .pure _
  | .tryBlock _ _ body catchBody _, st =>
    (validateStatements_raises scope body st).bind fun _ =>
      validateStatements_raises scope catchBody _

theorem validateStatements_raises (scope : Scope) : ∀ (stmts : List Statement)
    (st : List String × Nat), Raises CompileFail.IsErr (validateStatements scope stmts st)
  | [], _ => .ok _
  | stmt :: stmts, st =>
    (validateStatement_raises scope stmt st).bind fun _ => validateStatements_raises scope stmts _

end

theorem validateFunction_raises (prog : ProgramAst) (funcs : List String) (func : Function) :
    Raises CompileFail.IsErr (validateFunction prog funcs func) := by
  refine (collectLabels_raises func.body []).bind fun labels => ?_
  refine (validateStatements_raises _ func.body _).bind fun st => ?_
  obtain ⟨declared, tmpDepth⟩ := st
  by_cases hopen : 0 < tmpDepth
  · simp only [if_pos hopen]
    exact Raises.throw.mpr ⟨_, rfl⟩
  · simp only [if_neg hopen]
    exact .pure _

/-- Validation accepts, or fails with an `Err`. -/
theorem validate_raises (prog : ProgramAst) : Raises CompileFail.IsErr (validate prog) := by
  refine (collectFunctions_raises prog.functions []).bind fun funcs => ?_
  have hloop : Raises CompileFail.IsErr (forIn prog.functions PUnit.unit fun func _ => do
      validateFunction prog funcs func
      pure (ForInStep.yield PUnit.unit)) :=
    Raises.forIn (fun func _ => (validateFunction_raises prog funcs func).bind fun _ => .pure _) _
  split
  · exact (Raises.throw.mpr ⟨_, rfl⟩).bind fun _ => hloop.bind fun _ => .pure _
  · exact hloop.bind fun _ => .pure _

/-- A loop that succeeds has succeeded on every element. -/
theorem forIn_eq_ok {ε α : Type} {l : List α} {g : α → Except ε Unit}
    (h : (forIn l PUnit.unit fun a _ => do g a; pure (ForInStep.yield PUnit.unit)) =
      .ok PUnit.unit) : ∀ a ∈ l, g a = .ok () := by
  induction l with
  | nil => exact nofun
  | cons a l ih =>
    rw [List.forIn_cons] at h
    obtain ⟨r, hr, h⟩ := bind_eq_ok h
    obtain ⟨⟨⟩, ha, hr⟩ := bind_eq_ok hr
    cases hr
    exact List.forall_mem_cons.mpr ⟨ha, ih h⟩

/-- Every function of an accepted program has been accepted. -/
theorem validate_function {ast : ProgramAst} (h : validate ast = .ok ()) {f : Function}
    (hf : f ∈ ast.functions) : ∃ funcs, validateFunction ast funcs f = .ok () := by
  obtain ⟨funcs, -, h⟩ := bind_eq_ok h
  refine ⟨funcs, ?_⟩
  by_cases hmain : (!funcs.contains "Main") = true
  · simp only [if_pos hmain] at h
    cases h
  · simp only [if_neg hmain] at h
    obtain ⟨⟨⟩, hloop, -⟩ := bind_eq_ok h
    exact forIn_eq_ok hloop f hf

end Validation

/-! ## The front end -/

section Frontend

variable {u : Unicode} {source : String}

theorem frontend_raises (u : Unicode) (source : String) :
    Raises CompileFail.IsErr (frontend u source) := by
  rw [frontend]
  cases htokens : tokenize u source with
  | error e => exact Raises.error.mpr (Raises.error.mp (htokens ▸ (tokenize_lexes u source).raises))
  | ok tokens =>
    refine (parse_meets htokens).1.bind fun ast => ?_
    exact (validate_raises ast).bind fun _ => .pure _

/-- The stages of an accepted source. -/
theorem frontend_stages {ast : ProgramAst} (h : frontend u source = .ok ast) :
    ∃ tokens, tokenize u source = .ok tokens ∧ parse u tokens = .ok ast ∧
      validate ast = .ok () := by
  obtain ⟨tokens, htokens, h⟩ := bind_eq_ok h
  obtain ⟨ast', hast, h⟩ := bind_eq_ok h
  obtain ⟨⟨⟩, hval, h⟩ := bind_eq_ok h
  cases h
  exact ⟨tokens, htokens, hast, hval⟩

/-- The labels of its `TRY` blocks are made of their lines. -/
theorem frontend_labelled {ast : ProgramAst} (h : frontend u source = .ok ast) {f : Function}
    (hf : f ∈ ast.functions) : LabelledAll f.body := by
  obtain ⟨tokens, htokens, hast, -⟩ := frontend_stages h
  exact (parse_meets htokens).2 ast hast f hf

/-- Its functions are accepted by the validator. -/
theorem frontend_accepts {ast : ProgramAst} (h : frontend u source = .ok ast) {f : Function}
    (hf : f ∈ ast.functions) : ∃ funcs, validateFunction ast funcs f = .ok () := by
  obtain ⟨tokens, -, -, hval⟩ := frontend_stages h
  exact validate_function hval hf

end Frontend

end Fasm
