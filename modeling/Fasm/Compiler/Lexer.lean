import Fasm.Compiler.Ast
import Fasm.Vm.Float

/-!
# The lexer

`lexer.rs`.  The Unicode tables behind `char::is_alphabetic` and
`char::is_alphanumeric`, and the `{:?}` output of strings and floats, are a parameter.
-/

namespace Fasm

/-- What the compiler uses of the Unicode tables and the formatting of the standard library. -/
structure Unicode where
  isAlphabetic : Char → Bool
  isAlphanumeric : Char → Bool
  /-- `{:?}` of a string -/
  debugStr : String → String
  /-- `{:?}` of an `f64` -/
  debugFloat : U64 → String
  alphabetic_of_ascii : ∀ c : Char, c.toNat < 128 → isAlphabetic c = c.isAlpha
  alphanumeric_of_ascii : ∀ c : Char, c.toNat < 128 → isAlphanumeric c = c.isAlphanum
  alphanumeric_of_alphabetic : ∀ c, isAlphabetic c = true → isAlphanumeric c = true

/-- Tables that know ASCII only, and no escapes. -/
def Unicode.ascii : Unicode where
  isAlphabetic := Char.isAlpha
  isAlphanumeric := Char.isAlphanum
  debugStr s := s.quote
  debugFloat bits := toString bits.toNat
  alphabetic_of_ascii _ _ := rfl
  alphanumeric_of_ascii _ _ := rfl
  alphanumeric_of_alphabetic c h := by rw [Char.isAlphanum, h, Bool.true_or]

/-- `{:?}` of a token kind. -/
def TokenKind.debug (u : Unicode) : TokenKind → String
  | .integer n => "Integer(" ++ toString n.toInt ++ ")"
  | .hexInteger n => "HexInteger(" ++ toString n.toNat ++ ")"
  | .float bits => "Float(" ++ u.debugFloat bits ++ ")"
  | .stringLit s => "StringLit(" ++ u.debugStr s ++ ")"
  | .ident s => "Ident(" ++ u.debugStr s ++ ")"
  | .comma => "Comma"
  | .ampersand => "Ampersand"
  | .dot => "Dot"
  | .eof => "Eof"

/-- An `Err` that starts with the line. -/
def lineError {α : Type} (line : Nat) (msg : String) : Except CompileFail α :=
  .error (.error ("Line " ++ toString line ++ ": " ++ msg))

/-! ## Characters -/

/-- The double quote. -/
def dquote : Char := Char.ofNat 34

/-- The backslash. -/
def backslash : Char := Char.ofNat 92

/-- `char::is_ascii_hexdigit`. -/
def isHexDigit (c : Char) : Bool :=
  c.isDigit || ('a' ≤ c && c ≤ 'f') || ('A' ≤ c && c ≤ 'F')

/-- The value of a hexadecimal digit. -/
def hexValue (c : Char) : Nat :=
  if c.isDigit then c.toNat - '0'.toNat
  else if 'a' ≤ c then c.toNat - 'a'.toNat + 10
  else c.toNat - 'A'.toNat + 10

/-- A character that an identifier starts with. -/
def isIdentStart (u : Unicode) (c : Char) : Bool :=
  u.isAlphabetic c || c == '_' || c == '$'

/-- A character that an identifier goes on with. -/
def isIdentChar (u : Unicode) (c : Char) : Bool :=
  u.isAlphanumeric c || c == '_' || c == '$'

/-! ## Numbers -/

/-- The value of a list of digits. -/
def ofDigits (base : Nat) (value : Char → Nat) (ds : List Char) : Nat :=
  ds.foldl (fun n c => base * n + value c) 0

/-- The value of decimal digits. -/
def ofDecimal (ds : List Char) : Nat := ofDigits 10 hexValue ds

/-- `str::parse::<i64>` of digits with an optional minus sign. -/
def parseI64 (negative : Bool) (ds : List Char) : Option U64 :=
  let n := ofDecimal ds
  if negative then if n ≤ 2 ^ 63 then some (-(.ofNat 64 n)) else none
  else if n < 2 ^ 63 then some (.ofNat 64 n) else none

/-- `u64::from_str_radix(hex, 16)`. -/
def parseHex (ds : List Char) : Option U64 :=
  if ds = [] then none
  else
    let n := ofDigits 16 hexValue ds
    if n < 2 ^ 64 then some (.ofNat 64 n) else none

/-- `str::parse::<f64>` of `ds.fs` with an optional minus sign: correctly rounded, it never
fails. -/
def parseF64 (negative : Bool) (ds fs : List Char) : U64 :=
  let bits := f64ToBits (.ofScientific (ofDecimal (ds ++ fs)) (-fs.length))
  if negative then f64Neg bits else bits

/-! ## Tokens -/

/-- The rest of a string literal after its opening quote: the text and what follows the closing
quote, or nothing if there is none.  An unknown escape stands for nothing. -/
def lexString : List Char → Option (List Char × List Char)
  | [] => none
  | c :: cs =>
    if c = dquote then some ([], cs)
    else if c = backslash then
      match cs with
      | [] => none
      | e :: cs =>
        let escaped : List Char :=
          if e = 'n' then ['\n'] else if e = 't' then ['\t']
          else if e = dquote || e = backslash then [e] else []
        (lexString cs).map fun r => (escaped ++ r.1, r.2)
    else (lexString cs).map fun r => (c :: r.1, r.2)

/-- A number that starts at `cs`, after the minus sign if there is one: its token and what
follows.  A hexadecimal literal forgets the sign. -/
def lexNumber (negative : Bool) (line : Nat) (cs : List Char) :
    Except CompileFail (TokenKind × List Char) :=
  let isX (c : Option Char) : Bool := c = some 'x' || c = some 'X'
  if cs.head? = some '0' && isX cs.tail.head? then
    let rest := cs.tail.tail
    match parseHex (rest.takeWhile isHexDigit) with
    | some n => .ok (.hexInteger n, rest.dropWhile isHexDigit)
    | none => lineError line "invalid hex literal"
  else
    let ds := cs.takeWhile Char.isDigit
    match cs.dropWhile Char.isDigit with
    | '.' :: rest =>
      .ok (.float (parseF64 negative ds (rest.takeWhile Char.isDigit)),
        rest.dropWhile Char.isDigit)
    | rest =>
      match parseI64 negative ds with
      | some n => .ok (.integer n, rest)
      | none =>
        let num := String.ofList ((if negative then ['-'] else []) ++ ds)
        lineError line ("bad integer '" ++ num ++ "'")

/-- The loop of `tokenize`, for `fuel` turns at most. -/
def lexFrom (u : Unicode) : (fuel line : Nat) → List Char → Except CompileFail (List Token)
  | 0, _, _ => .error .diverges
  | _ + 1, line, [] => .ok [⟨.eof, line⟩]
  | fuel + 1, line, c :: cs =>
    let push (kind : TokenKind) (rest : List Char) : Except CompileFail (List Token) := do
      return ⟨kind, line⟩ :: (← lexFrom u fuel line rest)
    if c = '\n' then lexFrom u fuel (line + 1) cs
    else if c = ' ' || c = '\t' || c = '\r' then lexFrom u fuel line cs
    else if c = '/' then
      if cs.head? = some '/' then
        -- a comment, up to and with the end of its line
        match cs.dropWhile (· ≠ '\n') with
        | [] => lexFrom u fuel line []
        | _ :: rest => lexFrom u fuel (line + 1) rest
      else lineError line "unexpected '/'"
    else if c = ',' then push .comma cs
    else if c = '&' then push .ampersand cs
    else if c = '.' then push .dot cs
    else if c = dquote then
      match lexString cs with
      | none => lineError line "unterminated string"
      | some (s, rest) => push (.stringLit (String.ofList s)) rest
    else if c = '-' then
      if (cs.head?.map Char.isDigit).getD false then do
        let (kind, rest) ← lexNumber true line cs
        push kind rest
      else lineError line "expected digit after '-'"
    else if c.isDigit then do
      let (kind, rest) ← lexNumber false line (c :: cs)
      push kind rest
    else if isIdentStart u c then
      push (.ident (String.ofList ((c :: cs).takeWhile (isIdentChar u))))
        ((c :: cs).dropWhile (isIdentChar u))
    else lineError line ("unexpected character '" ++ String.singleton c ++ "'")

/-- `tokenize`. -/
def tokenize (u : Unicode) (source : String) : Except CompileFail (List Token) :=
  lexFrom u (source.toList.length + 1) 1 source.toList

end Fasm
