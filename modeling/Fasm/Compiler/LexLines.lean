import Fasm.Compiler.Scanning

/-!
# Lexing line by line

What the lexer makes of a text does not depend on the lines behind it: no lexeme but a string goes
over the end of a line, and a string has its closing quote in the text.
-/

namespace Fasm

variable {u : Unicode}

section NextLine

variable {rest next : List Char}

/-- With another line behind it the rest of a text starts as it did, or with the line break. -/
theorem forall_head?_nextLine {p : Char → Prop} (h : ∀ c ∈ rest.head?, p c) (hbreak : p '\n') :
    ∀ c ∈ (rest ++ '\n' :: next).head?, p c := by
  cases rest with
  | nil =>
    rintro _ ⟨⟩
    exact hbreak
  | cons c rest => exact h

theorem startsHex_nextLine : ∀ {cs : List Char}, startsHex cs = false →
    startsHex (cs ++ '\n' :: next) = false
  | [], _ => rfl
  | [_], _ => Bool.and_false _
  | _ :: _ :: _, h => h

theorem Literal.EndsAt.nextLine {l : Literal} (h : l.EndsAt rest) :
    l.EndsAt (rest ++ '\n' :: next) where
  digit := by
    refine forall_head?_nextLine h.digit ?_
    cases l.isHex <;> rfl
  dot hdec hdot := by
    refine forall_head?_nextLine (p := (· ≠ '.')) ?_ (by decide) '.' hdot rfl
    rintro _ hhead rfl
    exact h.dot hdec hhead
  hex hdec := by
    rw [← List.append_assoc]
    exact startsHex_nextLine (h.hex hdec)

/-- A string is closed in the text. -/
theorem lexString_append : ∀ {cs s rest : List Char} (more : List Char),
    lexString cs = some (s, rest) → lexString (cs ++ more) = some (s, rest ++ more)
  | [], _, _, _, h => by cases h
  | c :: cs, s, rest, more, h => by
    rw [lexString.eq_def] at h
    rw [List.cons_append, lexString.eq_def]
    simp only at h ⊢
    split at h
    case isTrue hquote =>
      rw [if_pos hquote]
      cases h
      rfl
    case isFalse hquote =>
      rw [if_neg hquote]
      split at h
      case isTrue hescape =>
        rw [if_pos hescape]
        cases cs with
        | nil => cases h
        | cons e cs =>
          obtain ⟨r, hr, hs⟩ := Option.map_eq_some_iff.mp h
          cases hs
          simp only [List.cons_append, lexString_append more hr]
          rfl
      case isFalse hescape =>
        rw [if_neg hescape]
        obtain ⟨r, hr, hs⟩ := Option.map_eq_some_iff.mp h
        cases hs
        rw [lexString_append more hr]
        rfl

end NextLine

/-- What is cut into lexemes is lexed into them when another line follows. -/
theorem Scans.lexesUpTo {cs : List Char} {ls : List Lexeme} (h : Scans u cs ls)
    (next : List Char) : LexesUpTo u next (cs ++ '\n' :: next) ls := by
  have hbreak : isIdentChar u '\n' = false := isIdentChar_ascii (by decide)
  induction h with
  | done => exact LexesUpTo.nil.blank List.mem_cons_self
  | blank hc _ ih => exact ih.blank hc
  | comment htext hend _ ih =>
    rw [List.append_assoc]
    refine ih.comment htext (.inr ?_)
    rcases hend with rfl | hend
    · rfl
    · rw [List.head?_append, hend]
      rfl
  | mark hc hk _ ih => exact ih.mark hc hk
  | text hs _ ih => exact ih.text (lexString_append _ hs)
  | number l hend _ ih =>
    rw [List.append_assoc]
    exact ih.number l hend.nextLine
  | float hne hds hfs hend _ ih =>
    rw [List.append_assoc]
    exact ih.float hne hds hfs (forall_head?_nextLine hend rfl)
  | word hc hcs hend _ ih =>
    rw [List.append_assoc]
    exact ih.word hc hcs (forall_head?_nextLine hend hbreak)

/-- The kinds of the tokens depend neither on the fuel nor on the number of the line. -/
theorem lexFrom_kinds {fuel line : Nat} {cs : List Char} {ts : List Token}
    (h : lexFrom u fuel line cs = .ok ts) (fuel' line' : Nat) (hfuel : cs.length < fuel') :
    ∃ ts', lexFrom u fuel' line' cs = .ok ts' ∧ ts'.map Token.kind = ts.map Token.kind := by
  obtain ⟨ls, hls, htokens⟩ := lexFrom_cuts _ _ _ _ h
  obtain ⟨ts', hts', htokens'⟩ := hls.lexesTo fuel' line' hfuel
  exact ⟨ts', hts', htokens'.trans htokens.symm⟩

/-- Lexing is compositional over lines: behind a text that is lexed, the next lines are lexed as
they are by themselves. -/
theorem tokenize_lines (source next : String) {ts : List Token}
    (h : tokenize u source = .ok ts) :
    ((∃ us, tokenize u (source ++ "\n" ++ next) = .ok us) ↔ ∃ ns, tokenize u next = .ok ns) ∧
      ∀ us ns, tokenize u (source ++ "\n" ++ next) = .ok us → tokenize u next = .ok ns →
        ∃ kinds, ts.map Token.kind = kinds ++ [.eof] ∧
          us.map Token.kind = kinds ++ ns.map Token.kind := by
  obtain ⟨ls, hls, htokens⟩ := lexFrom_cuts _ _ _ _ h
  have htext : (source ++ "\n" ++ next).toList = source.toList ++ '\n' :: next.toList := by
    rw [String.toList_append, String.toList_append, List.append_assoc]
    rfl
  have hjoined : TokensThen u next.toList ls (tokenize u (source ++ "\n" ++ next)) := by
    rw [tokenize, htext]
    exact hls.lexesUpTo next.toList _ _ (Nat.lt_succ_self _)
  obtain ⟨pre, fuel, line, hkinds, hfuel, hpre⟩ := hjoined
  rw [hpre]
  refine ⟨⟨?_, ?_⟩, ?_⟩
  · rintro ⟨us, hus⟩
    obtain ⟨ns, hns⟩ : ∃ ns, lexFrom u fuel line next.toList = .ok ns := by
      cases hlex : lexFrom u fuel line next.toList with
      | error e =>
        rw [hlex] at hus
        cases hus
      | ok ns => exact ⟨ns, rfl⟩
    obtain ⟨ns', hns', -⟩ := lexFrom_kinds hns _ 1 (Nat.lt_succ_self _)
    exact ⟨ns', hns'⟩
  · rintro ⟨ns, hns⟩
    obtain ⟨ns', hns', -⟩ := lexFrom_kinds hns fuel line hfuel
    exact ⟨pre ++ ns', by rw [hns']; rfl⟩
  · intro us ns hus hns
    obtain ⟨ns', hns', hkinds'⟩ := lexFrom_kinds hns fuel line hfuel
    refine ⟨ls.map Lexeme.kind, htokens, ?_⟩
    rw [hns'] at hus
    cases hus
    rw [List.map_append, hkinds, hkinds']

/-- A line that ends with a comment, and one behind it. -/
theorem tokenize_lines_comment :
    ∃ kinds, [TokenKind.ident "RET", .integer (-1), .eof] = kinds ++ [.eof] ∧
      [TokenKind.ident "RET", .integer (-1), .ident "ENDF", .eof] =
        kinds ++ [TokenKind.ident "ENDF", .eof] := by
  have hline : tokenize .ascii "RET -1 // &" =
      .ok [⟨.ident "RET", 1⟩, ⟨.integer (-1), 1⟩, ⟨.eof, 1⟩] := (rfl)
  have hnext : tokenize .ascii "ENDF" = .ok [⟨.ident "ENDF", 1⟩, ⟨.eof, 1⟩] := (rfl)
  have hboth : tokenize .ascii ("RET -1 // &" ++ "\n" ++ "ENDF") =
      .ok [⟨.ident "RET", 1⟩, ⟨.integer (-1), 1⟩, ⟨.ident "ENDF", 2⟩, ⟨.eof, 2⟩] := (rfl)
  exact (tokenize_lines "RET -1 // &" "ENDF" hline).2 _ _ hboth hnext

end Fasm
