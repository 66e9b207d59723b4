import Fasm.Compiler.Frontend
import Fasm.Lib.Spans

/-!
# Numbers as they are written

A token keeps the bits of a number only.  Here a source is cut into lexemes, in which a number
has the sign and the digits that it is written with; the tokens that the lexer returns are the
kinds of the lexemes.
-/

namespace Fasm

/-! ## Numbers -/

/-- A digit of a decimal or hexadecimal number. -/
def isDigitOf (hex : Bool) (c : Char) : Bool := if hex then isHexDigit c else c.isDigit

/-- The text starts with the zero and the letter of a hexadecimal number. -/
def startsHex (cs : List Char) : Bool :=
  cs.head? = some '0' && (cs.tail.head? = some 'x' || cs.tail.head? = some 'X')

/-- The text of a sign. -/
def signText (negative : Bool) : List Char := if negative then ['-'] else []

/-- A number as it is written, of which the lexer makes a token. -/
structure Literal where
  negative : Bool
  /-- the letter after the zero of a hexadecimal number -/
  mark : Option Char
  digits : List Char
  bits : U64
  mark_eq : ∀ x ∈ mark, x = 'x' ∨ x = 'X'
  digits_ne_nil : digits ≠ []
  isDigit : ∀ c ∈ digits, isDigitOf mark.isSome c = true
  lexed : (if mark.isSome then parseHex digits else parseI64 negative digits) = some bits

namespace Literal

theorem mark_none : ∀ x ∈ (none : Option Char), x = 'x' ∨ x = 'X' := nofun

theorem mark_x : ∀ x ∈ some 'x', x = 'x' ∨ x = 'X' := by
  rintro _ ⟨⟩
  exact .inl rfl

variable (l : Literal)

def isHex : Bool := l.mark.isSome

/-- The number without its sign. -/
def magnitude : Nat := ofDigits (if l.isHex then 16 else 10) hexValue l.digits

/-- The number that is written. -/
def value : Int := if l.negative then -l.magnitude else l.magnitude

/-- The text behind the sign. -/
def unsigned : List Char := (l.mark.elim [] fun x => ['0', x]) ++ l.digits

def text : List Char := signText l.negative ++ l.unsigned

def kind : TokenKind := if l.isHex then .hexInteger l.bits else .integer l.bits

def ast : AstValue := if l.isHex then .hexInt l.bits else .integer l.bits

/-- The text does not go on with the number. -/
structure EndsAt (rest : List Char) : Prop where
  digit : ∀ c ∈ rest.head?, isDigitOf l.isHex c = false
  dot : l.isHex = false → rest.head? ≠ some '.'
  hex : l.isHex = false → startsHex (l.digits ++ rest) = false

variable {l}

/-- A hexadecimal number keeps its magnitude. -/
theorem toNat_bits (h : l.isHex = true) : l.bits.toNat = l.magnitude := by
  have hlex := l.lexed
  have hmark : l.mark.isSome = true := h
  rw [if_pos hmark, parseHex] at hlex
  rw [if_neg l.digits_ne_nil] at hlex
  simp only at hlex
  split at hlex
  case isTrue hlt =>
    rw [← Option.some.inj hlex, magnitude, h]
    exact Nat.mod_eq_of_lt hlt
  case isFalse => cases hlex

/-- A decimal number keeps its value. -/
theorem toInt_bits (h : l.isHex = false) : l.bits.toInt = l.value := by
  have hlex := l.lexed
  have hmark : ¬ l.mark.isSome = true := by
    rw [show l.mark.isSome = false from h]
    exact Bool.false_ne_true
  have hmag : l.magnitude = ofDecimal l.digits := by
    rw [magnitude, h]
    rfl
  rw [if_neg hmark, parseI64, ← hmag] at hlex
  rw [value]
  split at hlex
  case isTrue hneg =>
    rw [if_pos hneg]
    split at hlex
    case isTrue hle =>
      rw [← Option.some.inj hlex, BitVec.toInt_neg, BitVec.toInt_ofNat']
      simp only [Int.bmod_def]
      omega
    case isFalse => cases hlex
  case isFalse hneg =>
    rw [if_neg hneg]
    split at hlex
    case isTrue hlt =>
      rw [← Option.some.inj hlex, BitVec.toInt_ofNat']
      simp only [Int.bmod_def]
      omega
    case isFalse => cases hlex

end Literal

/-! ## Lexemes -/

/-- Neither a number nor the end. -/
def TokenKind.isOther : TokenKind → Bool
  | .integer _ | .hexInteger _ | .eof => false
  | _ => true

/-- A piece of the text that is a token. -/
inductive Lexeme where
  | number (l : Literal)
  | other (kind : TokenKind) (h : kind.isOther = true)

namespace Lexeme

def kind : Lexeme → TokenKind
  | .number l => l.kind
  | .other kind _ => kind

def word (s : String) : Lexeme := .other (.ident s) rfl

def comma : Lexeme := .other .comma rfl

theorem kind_ne_eof (x : Lexeme) : x.kind ≠ .eof := by
  cases x with
  | number l =>
    rw [kind, Literal.kind]
    split <;> nofun
  | other kind h =>
    rintro rfl
    cases h

/-- Only a number is an integer. -/
theorem of_integer {x : Lexeme} {n : U64} (h : x.kind = .integer n) :
    ∃ l : Literal, x = .number l ∧ l.isHex = false ∧ l.bits = n := by
  cases x with
  | number l =>
    rw [kind, Literal.kind] at h
    split at h
    case isTrue => cases h
    case isFalse hhex =>
      cases h
      exact ⟨l, rfl, Bool.eq_false_iff.mpr hhex, rfl⟩
  | other kind h' =>
    obtain rfl : kind = .integer n := h
    cases h'

theorem of_hexInteger {x : Lexeme} {n : U64} (h : x.kind = .hexInteger n) :
    ∃ l : Literal, x = .number l ∧ l.isHex = true ∧ l.bits = n := by
  cases x with
  | number l =>
    rw [kind, Literal.kind] at h
    split at h
    case isTrue hhex =>
      cases h
      exact ⟨l, rfl, hhex, rfl⟩
    case isFalse => cases h
  | other kind h' =>
    obtain rfl : kind = .hexInteger n := h
    cases h'

/-- The other tokens are their lexemes. -/
theorem of_kind {x : Lexeme} {k : TokenKind} (h : x.kind = k) (hk : k.isOther = true) :
    x = .other k hk := by
  cases x with
  | number l =>
    rw [kind, Literal.kind] at h
    split at h <;> subst h <;> cases hk
  | other k' h' =>
    obtain rfl : k' = k := h
    rfl

end Lexeme

/-- The marks that are tokens by themselves. -/
def markKinds : List (Char × TokenKind) := [(',', .comma), ('&', .ampersand), ('.', .dot)]

/-- The text is cut into the lexemes. -/
inductive Scans (u : Unicode) : List Char → List Lexeme → Prop
  | done : Scans u [] []
  | blank {c cs ls} (hc : c ∈ ['\n', ' ', '\t', '\r']) (h : Scans u cs ls) : Scans u (c :: cs) ls
  | comment {text rest ls} (htext : ∀ c ∈ text, c ≠ '\n')
    (hend : rest = [] ∨ rest.head? = some '\n') (h : Scans u rest ls) :
    Scans u ('/' :: '/' :: text ++ rest) ls
  | mark {c kind cs ls} (hc : (c, kind) ∈ markKinds) (hk : kind.isOther = true)
    (h : Scans u cs ls) : Scans u (c :: cs) (.other kind hk :: ls)
  | text {cs s rest ls} (hs : lexString cs = some (s, rest)) (h : Scans u rest ls) :
    Scans u (dquote :: cs) (.other (.stringLit (String.ofList s)) rfl :: ls)
  | number {rest ls} (l : Literal) (hend : l.EndsAt rest) (h : Scans u rest ls) :
    Scans u (l.text ++ rest) (.number l :: ls)
  | float {negative ds fs rest ls} (hne : ds ≠ []) (hds : ∀ c ∈ ds, c.isDigit = true)
    (hfs : ∀ c ∈ fs, c.isDigit = true) (hend : ∀ c ∈ rest.head?, c.isDigit = false)
    (h : Scans u rest ls) :
    Scans u (signText negative ++ ds ++ '.' :: fs ++ rest)
      (.other (.float (parseF64 negative ds fs)) rfl :: ls)
  | word {c cs rest ls} (hc : isIdentStart u c = true) (hcs : ∀ d ∈ cs, isIdentChar u d = true)
    (hend : ∀ d ∈ rest.head?, isIdentChar u d = false) (h : Scans u rest ls) :
    Scans u (c :: cs ++ rest) (.word (String.ofList (c :: cs)) :: ls)

/-! ## The lexer -/

section Lexer

variable {u : Unicode}

/-- A word up to where it ends. -/
theorem Scans.word_cons {c : Char} {cs : List Char} {ls : List Lexeme}
    (hc : isIdentStart u c = true) (h : Scans u (cs.dropWhile (isIdentChar u)) ls) :
    Scans u (c :: cs) (.word (String.ofList (c :: cs.takeWhile (isIdentChar u))) :: ls) := by
  have hword : Scans u (c :: cs.takeWhile (isIdentChar u) ++ cs.dropWhile (isIdentChar u)) _ :=
    .word hc (fun _ => of_mem_takeWhile _) head?_dropWhile h
  rwa [List.cons_append, List.takeWhile_append_dropWhile] at hword

/-- The two kinds of numbers. -/
theorem lexNumber_hex {negative : Bool} {line : Nat} {cs : List Char} (h : startsHex cs = true) :
    lexNumber negative line cs =
      match parseHex (cs.tail.tail.takeWhile isHexDigit) with
      | some n => .ok (.hexInteger n, cs.tail.tail.dropWhile isHexDigit)
      | none => lineError line "invalid hex literal" := if_pos h

theorem lexNumber_decimal {negative : Bool} {line : Nat} {cs : List Char}
    (h : ¬ startsHex cs = true) :
    lexNumber negative line cs =
      match cs.dropWhile Char.isDigit with
      | '.' :: rest =>
        .ok (.float (parseF64 negative (cs.takeWhile Char.isDigit) (rest.takeWhile Char.isDigit)),
          rest.dropWhile Char.isDigit)
      | rest =>
        match parseI64 negative (cs.takeWhile Char.isDigit) with
        | some n => .ok (.integer n, rest)
        | none => lineError line ("bad integer '" ++ String.ofList
            ((if negative then ['-'] else []) ++ cs.takeWhile Char.isDigit) ++ "'") := if_neg h

section Number

variable {negative : Bool} {line : Nat} {c : Char} {cs rest : List Char} {kind : TokenKind}

theorem lexNumber_scans_hex (h : lexNumber negative line (c :: cs) = .ok (kind, rest))
    (hhex : startsHex (c :: cs) = true) : ∃ x : Lexeme, x.kind = kind ∧
      ∀ ls, Scans u rest ls → Scans u (signText negative ++ c :: cs) (x :: ls) := by
  rw [lexNumber_hex hhex] at h
  obtain ⟨hzero, hx⟩ := Bool.and_eq_true_iff.mp hhex
  obtain rfl : c = '0' := Option.some.inj (of_decide_eq_true hzero)
  cases cs with
  | nil => cases hx
  | cons x cs =>
    have hx' : x = 'x' ∨ x = 'X' :=
      (Bool.or_eq_true_iff.mp hx).imp (fun h => Option.some.inj (of_decide_eq_true h))
        fun h => Option.some.inj (of_decide_eq_true h)
    simp only [List.tail_cons] at h
    split at h
    case h_1 n hn =>
      cases h
      have hne : cs.takeWhile isHexDigit ≠ [] := fun hnil => by
        rw [hnil] at hn
        cases hn
      let l : Literal := ⟨negative, some x, cs.takeWhile isHexDigit, n,
        fun y hy => Option.mem_some.mp hy ▸ hx', hne, of_mem_takeWhile, hn⟩
      refine ⟨.number l, rfl, fun ls hls => ?_⟩
      have htext : signText negative ++ '0' :: x :: cs = l.text ++ cs.dropWhile isHexDigit := by
        simp only [Literal.text, Literal.unsigned, l, Option.elim, List.append_assoc,
          List.takeWhile_append_dropWhile]
        rfl
      rw [htext]
      exact .number l ⟨head?_dropWhile, nofun, nofun⟩ hls
    case h_2 => cases h

theorem lexNumber_scans_decimal (h : lexNumber negative line (c :: cs) = .ok (kind, rest))
    (hc : c.isDigit = true) (hhex : ¬ startsHex (c :: cs) = true) : ∃ x : Lexeme, x.kind = kind ∧
      ∀ ls, Scans u rest ls → Scans u (signText negative ++ c :: cs) (x :: ls) := by
  rw [lexNumber_decimal hhex] at h
  have hsplit := List.takeWhile_append_dropWhile (p := Char.isDigit) (l := c :: cs)
  have hne : (c :: cs).takeWhile Char.isDigit ≠ [] := by
    rw [List.takeWhile_cons_of_pos hc]
    exact List.cons_ne_nil _ _
  split at h
  case h_1 rest' hdrop =>
    -- the digits behind a dot make a float
    cases h
    refine ⟨.other (.float _) rfl, rfl, fun ls hls => ?_⟩
    have htext : signText negative ++ c :: cs = signText negative ++
        (c :: cs).takeWhile Char.isDigit ++ '.' :: rest'.takeWhile Char.isDigit ++
          rest'.dropWhile Char.isDigit := by
      rw [List.append_assoc _ _ (rest'.dropWhile _), List.cons_append,
        List.takeWhile_append_dropWhile, List.append_assoc, ← hdrop, hsplit]
    rw [htext]
    exact .float hne of_mem_takeWhile of_mem_takeWhile head?_dropWhile hls
  case h_2 hdot =>
    split at h
    case h_1 n hn =>
      cases h
      let l : Literal := ⟨negative, none, (c :: cs).takeWhile Char.isDigit, n, nofun, hne,
        of_mem_takeWhile, hn⟩
      refine ⟨.number l, rfl, fun ls hls => ?_⟩
      have htext : signText negative ++ c :: cs =
          l.text ++ (c :: cs).dropWhile Char.isDigit := by
        rw [Literal.text, List.append_assoc]
        exact congrArg _ hsplit.symm
      rw [htext]
      refine .number l ⟨head?_dropWhile, fun _ h => ?_, fun _ => ?_⟩ hls
      · obtain ⟨rest', hrest⟩ := List.head?_eq_some_iff.mp h
        exact hdot rest' hrest
      · rw [← Bool.not_eq_true]
        exact hsplit.symm ▸ hhex
    case h_2 => cases h

/-- A number in the text is the lexeme of its token. -/
theorem lexNumber_scans (h : lexNumber negative line (c :: cs) = .ok (kind, rest))
    (hc : c.isDigit = true) : ∃ x : Lexeme, x.kind = kind ∧
      ∀ ls, Scans u rest ls → Scans u (signText negative ++ c :: cs) (x :: ls) := by
  by_cases hhex : startsHex (c :: cs) = true
  · exact lexNumber_scans_hex h hhex
  · exact lexNumber_scans_decimal h hc hhex

end Number

/-- The kinds of the tokens, the end included. -/
def TokensOf (ts : List Token) (ls : List Lexeme) : Prop :=
  ts.map Token.kind = ls.map Lexeme.kind ++ [.eof]

variable (u) in
/-- If there are tokens, they are those of the lexemes of the text. -/
def Cuts (cs : List Char) (r : Except CompileFail (List Token)) : Prop :=
  ∀ ts, r = .ok ts → ∃ ls, Scans u cs ls ∧ TokensOf ts ls

namespace Cuts

variable {cs rest : List Char} {r : Except CompileFail (List Token)}

theorem lineError {ln : Nat} {msg : String} : Cuts u cs (lineError ln msg) := nofun

theorem ite {c : Prop} [Decidable c] {x y : Except CompileFail (List Token)}
    (hx : c → Cuts u cs x) (hy : ¬ c → Cuts u cs y) : Cuts u cs (if c then x else y) := by
  split
  case isTrue h => exact hx h
  case isFalse h => exact hy h

/-- A text that is skipped. -/
theorem skip (h : Cuts u rest r) (hskip : ∀ ls, Scans u rest ls → Scans u cs ls) : Cuts u cs r := by
  intro ts hts
  obtain ⟨ls, hls, htokens⟩ := h ts hts
  exact ⟨ls, hskip ls hls, htokens⟩

/-- A token in front of the others. -/
theorem cons {line : Nat} (x : Lexeme) (h : Cuts u rest r)
    (hscan : ∀ ls, Scans u rest ls → Scans u cs (x :: ls)) :
    Cuts u cs (do return ⟨x.kind, line⟩ :: (← r)) := by
  intro ts hts
  obtain ⟨ts', hts', heq⟩ := bind_eq_ok hts
  cases heq
  obtain ⟨ls, hls, htokens⟩ := h ts' hts'
  refine ⟨x :: ls, hscan ls hls, ?_⟩
  rw [TokensOf, List.map_cons, List.map_cons, List.cons_append, ← htokens]

/-- A number in front of the others. -/
theorem number (negative : Bool) {line : Nat} {c : Char}
    {k : List Char → Except CompileFail (List Token)} (hc : c.isDigit = true)
    (hk : ∀ rest, Cuts u rest (k rest)) :
    Cuts u (signText negative ++ c :: cs) (do
      let (kind, rest) ← lexNumber negative line (c :: cs)
      return ⟨kind, line⟩ :: (← k rest)) := by
  intro ts hts
  obtain ⟨⟨kind, rest⟩, hnum, hts⟩ := bind_eq_ok hts
  obtain ⟨x, rfl, hscan⟩ := lexNumber_scans hnum hc
  exact (hk rest).cons x hscan ts hts

end Cuts

/-- The lexer cuts its text into lexemes. -/
theorem lexFrom_cuts : ∀ (fuel line : Nat) (cs : List Char), Cuts u cs (lexFrom u fuel line cs)
  | 0, _, _ => nofun
  | fuel + 1, line, [] => fun ts h => by
    cases h
    exact ⟨[], .done, rfl⟩
  | fuel + 1, line, c :: cs => by
    have ih := lexFrom_cuts fuel
    rw [lexFrom]
    refine .ite (fun hc => ?_) fun _ => ?_
    · exact (ih (line + 1) cs).skip fun _ => .blank (by simp [hc])
    refine .ite (fun hc => ?_) fun _ => ?_
    · refine (ih line cs).skip fun _ => .blank ?_
      simp only [Bool.or_eq_true, decide_eq_true_eq] at hc
      rcases hc with (rfl | rfl) | rfl <;> simp
    refine .ite (fun hc => .ite (fun hslash => ?_) fun _ => .lineError) fun _ => ?_
    · obtain ⟨cs, rfl⟩ := List.head?_eq_some_iff.mp hslash
      subst hc
      -- the text of the comment is what is dropped, from the second slash on
      have hskip (rest : List Char) (hdrop : cs.dropWhile (· ≠ '\n') = rest)
          (hend : rest = [] ∨ rest.head? = some '\n') (ls : List Lexeme) (hls : Scans u rest ls) :
          Scans u ('/' :: '/' :: cs) ls := by
        have htext : Scans u ('/' :: '/' :: cs.takeWhile (· ≠ '\n') ++ rest) ls :=
          .comment (fun d hd => of_decide_eq_true (of_mem_takeWhile d hd)) hend hls
        rwa [← hdrop, List.cons_append, List.cons_append, List.takeWhile_append_dropWhile] at htext
      rw [List.dropWhile_cons_of_pos (by decide)]
      cases hdrop : cs.dropWhile (· ≠ '\n') with
      | nil => exact (ih line []).skip (hskip [] hdrop (.inl rfl))
      | cons d rest =>
        have hd : d = '\n' := by
          have hhead := @head?_dropWhile _ (· ≠ '\n') cs
          rw [hdrop] at hhead
          exact of_not_not (of_decide_eq_false (hhead d rfl))
        subst hd
        exact (ih (line + 1) rest).skip fun ls hls =>
          hskip _ hdrop (.inr rfl) ls (.blank (by simp) hls)
    refine .ite (fun hc => ?_) fun _ => ?_
    · exact (ih line cs).cons .comma fun _ => .mark (by simp [hc, markKinds]) rfl
    refine .ite (fun hc => ?_) fun _ => ?_
    · exact (ih line cs).cons (.other .ampersand rfl) fun _ => .mark (by simp [hc, markKinds]) rfl
    refine .ite (fun hc => ?_) fun _ => ?_
    · exact (ih line cs).cons (.other .dot rfl) fun _ => .mark (by simp [hc, markKinds]) rfl
    refine .ite (fun hc => ?_) fun _ => ?_
    · subst hc
      cases hstr : lexString cs with
      | none => exact .lineError
      | some r =>
        exact (ih line r.2).cons (.other (.stringLit (String.ofList r.1)) rfl) fun _ => .text hstr
    refine .ite (fun hc => .ite (fun hdigit => ?_) fun _ => .lineError) fun _ => ?_
    · cases cs with
      | nil => cases hdigit
      | cons d cs =>
        subst hc
        exact .number true hdigit fun rest => ih line rest
    refine .ite (fun hdigit => ?_) fun _ => ?_
    · exact .number false hdigit fun rest => ih line rest
    refine .ite (fun hstart => ?_) fun _ => .lineError
    have hchar := isIdentChar_of_isIdentStart hstart
    rw [List.takeWhile_cons_of_pos hchar, List.dropWhile_cons_of_pos hchar]
    exact (ih line _).cons (.word _) fun _ => .word_cons hstart

end Lexer

end Fasm
