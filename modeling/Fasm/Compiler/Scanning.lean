import Fasm.Compiler.Lexemes

/-!
# Lexing what is cut into lexemes

The converse of `lexFrom_cuts`: a text that is cut into lexemes is lexed, into their tokens.  What
follows a lexeme has to end it, so each rule is stated with the rest of the text.
-/

namespace Fasm

variable {u : Unicode}

/-! ## Numbers -/

section Number

variable {rest : List Char} {line : Nat}

/-- Digits are no hexadecimal number if no mark follows. -/
theorem startsHex_append {ds rest : List Char} (hne : ds ≠ [])
    (hds : ∀ c ∈ ds, c.isDigit = true) (hrest : ∀ c ∈ rest.head?, c ≠ 'x' ∧ c ≠ 'X') :
    startsHex (ds ++ rest) = false := by
  cases ds with
  | nil => exact absurd rfl hne
  | cons c ds =>
    have hnext : ∀ d ∈ (ds ++ rest).head?, d ≠ 'x' ∧ d ≠ 'X' := by
      cases ds with
      | nil => exact hrest
      | cons d ds =>
        rintro _ ⟨⟩
        have hd := hds d (List.mem_cons_of_mem _ List.mem_cons_self)
        constructor <;> (rintro rfl; exact absurd hd (by decide))
    rw [startsHex, List.cons_append, List.tail_cons, Bool.and_eq_false_iff]
    right
    cases hhead : (ds ++ rest).head? with
    | none => rfl
    | some d =>
      obtain ⟨hx, hX⟩ := hnext d hhead
      simp [hx, hX]

/-- Behind its sign a number starts with a digit. -/
theorem Literal.unsigned_eq_cons (l : Literal) :
    ∃ c cs, l.unsigned = c :: cs ∧ c.isDigit = true := by
  obtain ⟨negative, mark, digits, bits, hmark, hne, hdigits, hlexed⟩ := l
  cases mark with
  | some x => exact ⟨'0', x :: digits, rfl, rfl⟩
  | none =>
    obtain ⟨c, cs, rfl⟩ := List.exists_cons_of_ne_nil hne
    exact ⟨c, cs, rfl, hdigits c List.mem_cons_self⟩

/-- A literal that the text does not go on with is lexed. -/
theorem lexNumber_literal (l : Literal) (hend : l.EndsAt rest) :
    lexNumber l.negative line (l.unsigned ++ rest) = .ok (l.kind, rest) := by
  obtain ⟨negative, mark, digits, bits, hmark, hne, hdigits, hlexed⟩ := l
  cases mark with
  | some x =>
    have hdrop := dropWhile_append_of_head? hdigits hend.digit
    have htake := takeWhile_append_of_head? hdigits hend.digit
    have hhex : startsHex ('0' :: x :: digits ++ rest) = true := by
      rcases hmark x rfl with rfl | rfl <;> rfl
    refine (lexNumber_hex hhex).trans ?_
    simp only [List.cons_append, List.tail_cons]
    rw [show (digits ++ rest).takeWhile isHexDigit = digits from htake,
      show (digits ++ rest).dropWhile isHexDigit = rest from hdrop,
      show parseHex digits = some bits from hlexed]
    rfl
  | none =>
    have hdrop := dropWhile_append_of_head? hdigits hend.digit
    have htake := takeWhile_append_of_head? hdigits hend.digit
    refine (lexNumber_decimal (Bool.eq_false_iff.mp (hend.hex rfl))).trans ?_
    rw [show (digits ++ rest).takeWhile Char.isDigit = digits from htake,
      show (digits ++ rest).dropWhile Char.isDigit = rest from hdrop]
    split
    case h_1 rest' => exact absurd rfl (hend.dot rfl)
    case h_2 =>
      rw [show parseI64 negative digits = some bits from hlexed]
      rfl

theorem lexNumber_float {negative : Bool} {ds fs : List Char} (hne : ds ≠ [])
    (hds : ∀ c ∈ ds, c.isDigit = true) (hfs : ∀ c ∈ fs, c.isDigit = true)
    (hend : ∀ c ∈ rest.head?, c.isDigit = false) :
    lexNumber negative line (ds ++ '.' :: fs ++ rest) =
      .ok (.float (parseF64 negative ds fs), rest) := by
  have hdot : ∀ c ∈ ('.' :: (fs ++ rest)).head?, c.isDigit = false := by
    rintro _ ⟨⟩
    rfl
  rw [List.append_assoc, List.cons_append]
  have hhex : startsHex (ds ++ '.' :: (fs ++ rest)) = false :=
    startsHex_append hne hds (by rintro _ ⟨⟩; decide)
  refine (lexNumber_decimal (Bool.eq_false_iff.mp hhex)).trans ?_
  rw [takeWhile_append_of_head? hds hdot, dropWhile_append_of_head? hds hdot]
  simp only
  rw [takeWhile_append_of_head? hfs hend, dropWhile_append_of_head? hfs hend]

end Number

/-! ## Lexing -/

theorem isIdentStart_ascii {c : Char} (hc : c.toNat < 128) :
    isIdentStart u c = (c.isAlpha || c == '_' || c == '$') := by
  rw [isIdentStart, u.alphabetic_of_ascii c hc]

theorem isIdentChar_ascii {c : Char} (hc : c.toNat < 128) :
    isIdentChar u c = (c.isAlphanum || c == '_' || c == '$') := by
  rw [isIdentChar, u.alphanumeric_of_ascii c hc]

/-- An identifier starts with none of the characters that start other tokens. -/
theorem ne_of_isIdentStart {c d : Char} (h : isIdentStart u c = true) (hd : d.toNat < 128)
    (hother : (d.isAlpha || d == '_' || d == '$') = false) : c ≠ d := by
  rintro rfl
  rw [isIdentStart_ascii hd, hother] at h
  cases h

/-- No identifier starts with a digit. -/
theorem isDigit_of_isIdentStart {c : Char} (h : isIdentStart u c = true) : c.isDigit = false := by
  have hdigits : ∀ n < 58, (Char.ofNat n).isDigit = true →
      ((Char.ofNat n).isAlpha || Char.ofNat n == '_' || Char.ofNat n == '$') = false := by
    decide
  rw [Bool.eq_false_iff]
  intro hdigit
  have hlt : c.toNat < 58 := by
    rw [Char.isDigit, Bool.and_eq_true] at hdigit
    exact Nat.lt_succ_of_le (of_decide_eq_true hdigit.2)
  rw [isIdentStart_ascii (Nat.lt_trans hlt (by decide)), ← c.ofNat_toNat,
    hdigits c.toNat hlt (by rwa [c.ofNat_toNat])] at h
  cases h

variable (u) in
/-- The text is lexed into the tokens of the lexemes. -/
def LexesTo (cs : List Char) (ls : List Lexeme) : Prop := ∀ fuel line, cs.length < fuel →
  ∃ ts, lexFrom u fuel line cs = .ok ts ∧ TokensOf ts ls

variable (u) in
/-- The result is the tokens of the lexemes in front of what the lexer makes of `tail`. -/
def TokensThen (tail : List Char) (ls : List Lexeme) (r : Except CompileFail (List Token)) : Prop :=
  ∃ ts fuel line, ts.map Token.kind = ls.map Lexeme.kind ∧ tail.length < fuel ∧
    r = (lexFrom u fuel line tail).map (ts ++ ·)

variable (u) in
/-- The text is lexed into the tokens of the lexemes, up to its end `tail`. -/
def LexesUpTo (tail cs : List Char) (ls : List Lexeme) : Prop := ∀ fuel line, cs.length < fuel →
  TokensThen u tail ls (lexFrom u fuel line cs)

/-- A token in front of the others. -/
theorem TokensThen.cons {tail : List Char} {ls : List Lexeme} {r : Except CompileFail (List Token)}
    (h : TokensThen u tail ls r) (line : Nat) (x : Lexeme) :
    TokensThen u tail (x :: ls) (do return Token.mk x.kind line :: (← r)) := by
  obtain ⟨ts, fuel, line', hkinds, hfuel, rfl⟩ := h
  refine ⟨⟨x.kind, line⟩ :: ts, fuel, line', congrArg (x.kind :: ·) hkinds, hfuel, ?_⟩
  cases lexFrom u fuel line' tail <;> rfl

namespace LexesUpTo

variable {c : Char} {tail cs rest : List Char} {ls : List Lexeme}

/-- The end itself. -/
theorem nil : LexesUpTo u tail tail []
  | fuel, line, hfuel => by
    refine ⟨[], fuel, line, rfl, hfuel, ?_⟩
    cases lexFrom u fuel line tail <;> rfl

/-- Up to the end of the text. -/
theorem lexesTo (h : LexesUpTo u [] cs ls) : LexesTo u cs ls
  | fuel, line, hfuel => by
    obtain ⟨ts, fuel', line', hkinds, hfuel', hts⟩ := h fuel line hfuel
    cases fuel' with
    | zero => cases hfuel'
    | succ fuel' =>
      refine ⟨ts ++ [⟨.eof, line'⟩], hts.trans rfl, ?_⟩
      rw [TokensOf, List.map_append, hkinds]
      rfl

/-- A turn that skips characters. -/
theorem skip (h : LexesUpTo u tail rest ls) (hlen : rest.length ≤ cs.length) {fuel : Nat}
    (hfuel : cs.length < fuel) (line : Nat) : TokensThen u tail ls (lexFrom u fuel line rest) :=
  h fuel line (Nat.lt_of_le_of_lt hlen hfuel)

/-- A turn that makes a token. -/
theorem push (h : LexesUpTo u tail rest ls) (hlen : rest.length ≤ cs.length) {fuel : Nat}
    (hfuel : cs.length < fuel) (line : Nat) (x : Lexeme) :
    TokensThen u tail (x :: ls) (do return Token.mk x.kind line :: (← lexFrom u fuel line rest)) :=
  (h.skip hlen hfuel line).cons line x

theorem blank (hc : c ∈ ['\n', ' ', '\t', '\r']) (h : LexesUpTo u tail cs ls) :
    LexesUpTo u tail (c :: cs) ls
  | fuel + 1, line, hfuel => by
    have hskip := h.skip (Nat.le_refl _) (Nat.lt_of_succ_lt_succ hfuel)
    rw [lexFrom]
    simp only [List.mem_cons, List.not_mem_nil, or_false] at hc
    rcases hc with rfl | rfl | rfl | rfl
    · exact hskip (line + 1)
    · exact hskip line
    · exact hskip line
    · exact hskip line

/-- A comment is skipped with the end of its line, which is a blank. -/
theorem comment {text : List Char} (htext : ∀ c ∈ text, c ≠ '\n')
    (hend : rest = [] ∨ rest.head? = some '\n') (h : LexesUpTo u tail rest ls) :
    LexesUpTo u tail ('/' :: '/' :: text ++ rest) ls
  | fuel + 1, line, hfuel => by
    have hdrop : ('/' :: text ++ rest).dropWhile (fun c => decide (c ≠ '\n')) = rest := by
      refine dropWhile_append_of_head? ?_ ?_
      · rintro c (_ | ⟨_, hc⟩)
        · rfl
        · exact decide_eq_true (htext c hc)
      · rcases hend with rfl | hend
        · exact nofun
        · rw [hend]
          rintro _ ⟨⟩
          rfl
    have hslash : ('/' :: text ++ rest).head? = some '/' := rfl
    rw [List.cons_append, lexFrom, if_neg (by decide), if_neg (by decide), if_pos rfl,
      if_pos hslash, hdrop]
    have hlen : rest.length < fuel := by
      simp only [List.cons_append, List.length_cons, List.length_append] at hfuel
      omega
    cases rest with
    | nil => exact h fuel line hlen
    | cons c rest =>
      obtain rfl : c = '\n' := Option.some.inj (hend.resolve_left (List.cons_ne_nil _ _))
      -- what follows the end of the line is lexed as it is behind it
      exact h (fuel + 1) line (Nat.lt_succ_of_lt hlen)

theorem mark {kind : TokenKind} (hc : (c, kind) ∈ markKinds) (hk : kind.isOther = true)
    (h : LexesUpTo u tail cs ls) : LexesUpTo u tail (c :: cs) (.other kind hk :: ls)
  | fuel + 1, line, hfuel => by
    have hpush := h.push (Nat.le_refl _) (Nat.lt_of_succ_lt_succ hfuel) line (.other kind hk)
    rw [lexFrom]
    simp only [markKinds, List.mem_cons, List.not_mem_nil, or_false, Prod.mk.injEq] at hc
    rcases hc with ⟨rfl, rfl⟩ | ⟨rfl, rfl⟩ | ⟨rfl, rfl⟩
    · exact hpush
    · exact hpush
    · exact hpush

theorem text {s : List Char} (hs : lexString cs = some (s, rest)) (h : LexesUpTo u tail rest ls) :
    LexesUpTo u tail (dquote :: cs) (.other (.stringLit (String.ofList s)) rfl :: ls)
  | fuel + 1, line, hfuel => by
    have hpush := h.push (Nat.le_of_lt (lexString_length hs)) (Nat.lt_of_succ_lt_succ hfuel) line
      (.other (.stringLit (String.ofList s)) rfl)
    rw [lexFrom, if_neg (by decide), if_neg (by decide), if_neg (by decide), if_neg (by decide),
      if_neg (by decide), if_neg (by decide), if_pos rfl, hs]
    exact hpush

/-- A number, behind its sign. -/
theorem digits {negative : Bool} {x : Lexeme} (hc : c.isDigit = true)
    (hnum : ∀ line, lexNumber negative line (c :: cs) = .ok (x.kind, rest))
    (h : LexesUpTo u tail rest ls) :
    LexesUpTo u tail (signText negative ++ c :: cs) (x :: ls)
  | fuel + 1, line, hfuel => by
    have hlen := lexNumber_length (hnum line) hc
    cases negative with
    | true =>
      have hlen' : rest.length ≤ (c :: cs).length := Nat.le_succ_of_le hlen
      have hpush := h.push hlen' (Nat.lt_of_succ_lt_succ hfuel) line x
      have hdigit : (((c :: cs).head?.map Char.isDigit).getD false) = true := hc
      rw [signText, if_pos rfl, List.singleton_append, lexFrom, if_neg (by decide),
        if_neg (by decide), if_neg (by decide), if_neg (by decide), if_neg (by decide),
        if_neg (by decide), if_neg (by decide), if_pos rfl, if_pos hdigit, hnum line]
      exact hpush
    | false =>
      have hpush := h.push hlen (Nat.lt_of_succ_lt_succ hfuel) line x
      have hne {d : Char} (hd : d.isDigit = false) : c ≠ d := by
        rintro rfl
        rw [hd] at hc
        cases hc
      rw [signText, if_neg Bool.false_ne_true, List.nil_append, lexFrom, if_neg (hne rfl),
        if_neg (by simp [hne]), if_neg (hne rfl), if_neg (hne rfl), if_neg (hne rfl),
        if_neg (hne rfl), if_neg (hne rfl), if_neg (hne rfl), if_pos hc, hnum line]
      exact hpush

theorem number (l : Literal) (hend : l.EndsAt rest) (h : LexesUpTo u tail rest ls) :
    LexesUpTo u tail (l.text ++ rest) (.number l :: ls) := by
  obtain ⟨c, cs, hcons, hc⟩ := l.unsigned_eq_cons
  rw [Literal.text, List.append_assoc, hcons, List.cons_append]
  refine h.digits hc fun line => ?_
  rw [← List.cons_append, ← hcons]
  exact lexNumber_literal l hend

theorem float {negative : Bool} {ds fs : List Char} (hne : ds ≠ [])
    (hds : ∀ c ∈ ds, c.isDigit = true) (hfs : ∀ c ∈ fs, c.isDigit = true)
    (hend : ∀ c ∈ rest.head?, c.isDigit = false) (h : LexesUpTo u tail rest ls) :
    LexesUpTo u tail (signText negative ++ ds ++ '.' :: fs ++ rest)
      (.other (.float (parseF64 negative ds fs)) rfl :: ls) := by
  obtain ⟨c, ds, rfl⟩ := List.exists_cons_of_ne_nil hne
  rw [List.append_assoc (signText negative), List.append_assoc (signText negative),
    List.cons_append, List.cons_append]
  exact h.digits (hds c List.mem_cons_self) fun line => lexNumber_float hne hds hfs hend

theorem word (hc : isIdentStart u c = true) (hcs : ∀ d ∈ cs, isIdentChar u d = true)
    (hend : ∀ d ∈ rest.head?, isIdentChar u d = false) (h : LexesUpTo u tail rest ls) :
    LexesUpTo u tail (c :: cs ++ rest) (.word (String.ofList (c :: cs)) :: ls)
  | fuel + 1, line, hfuel => by
    have hword : ∀ d ∈ c :: cs, isIdentChar u d = true :=
      List.forall_mem_cons.mpr ⟨isIdentChar_of_isIdentStart hc, hcs⟩
    have hlen : rest.length < fuel := by
      simp only [List.cons_append, List.length_cons, List.length_append] at hfuel
      omega
    have hpush := h.push (Nat.le_refl _) hlen line (.word (String.ofList (c :: cs)))
    have hne {d : Char} (hd : d.toNat < 128)
        (hother : (d.isAlpha || d == '_' || d == '$') = false) : c ≠ d :=
      ne_of_isIdentStart hc hd hother
    rw [List.cons_append, lexFrom, if_neg (hne (by decide) (by decide)),
      if_neg (by simp [hne]), if_neg (hne (by decide) (by decide)),
      if_neg (hne (by decide) (by decide)), if_neg (hne (by decide) (by decide)),
      if_neg (hne (by decide) (by decide)), if_neg (hne (by decide) (by decide)),
      if_neg (hne (by decide) (by decide)),
      if_neg (Bool.eq_false_iff.mp (isDigit_of_isIdentStart hc)),
      if_pos hc, ← List.cons_append, takeWhile_append_of_head? hword hend,
      dropWhile_append_of_head? hword hend]
    exact hpush

end LexesUpTo

/-- What is cut into lexemes is lexed. -/
theorem Scans.lexesTo {cs : List Char} {ls : List Lexeme} (h : Scans u cs ls) :
    LexesTo u cs ls := by
  have hlex : LexesUpTo u [] cs ls := by
    induction h with
    | done => exact .nil
    | blank hc _ ih => exact ih.blank hc
    | comment htext hend _ ih => exact ih.comment htext hend
    | mark hc hk _ ih => exact ih.mark hc hk
    | text hs _ ih => exact ih.text hs
    | number l hend _ ih => exact ih.number l hend
    | float hne hds hfs hend _ ih => exact ih.float hne hds hfs hend
    | word hc hcs hend _ ih => exact ih.word hc hcs hend
  exact hlex.lexesTo

/-- The lexer accepts the texts that are cut into lexemes, and no others. -/
theorem tokenize_ok_iff {source : String} : (∃ ts, tokenize u source = .ok ts) ↔
    ∃ ls, Scans u source.toList ls := by
  constructor
  · rintro ⟨ts, hts⟩
    obtain ⟨ls, hls, -⟩ := lexFrom_cuts _ _ _ _ hts
    exact ⟨ls, hls⟩
  · rintro ⟨ls, hls⟩
    obtain ⟨ts, hts, -⟩ := hls.lexesTo _ 1 (Nat.lt_succ_self _)
    exact ⟨ts, hts⟩

end Fasm
