import TwinClasses.Token.Kind

set_option autoImplicit false

/-! The longest token at the front of a text, as far as it can be told without knowing what came
before. A rule answers with the number of characters that follow the first one, so every token has
at least one character. -/

namespace TwinClasses.Scan

/-- Number of characters in the longest run of `p` at the front. -/
def run (p : Char → Bool) (cs : List Char) : Nat := (cs.takeWhile p).length

def isSpace (c : Char) : Bool := c ∈ [' ', '\t', '\r', '\n', '\x0c']

def isNameStart (c : Char) : Bool := c.isAlpha || c = '_' || c = '$'

/-- Every character beyond ASCII may stand in an identifier, wherever it belongs otherwise. -/
def isIdentifierStart (c : Char) : Bool := isNameStart c || 0x80 ≤ c.toNat

def isIdentifierPart (c : Char) : Bool := isIdentifierStart c || c.isDigit

def isPrivateNamePart (c : Char) : Bool := isNameStart c || c.isDigit

def isDigitPart (c : Char) : Bool := c.isDigit || c = '_'

def isRadixDigitPart (c : Char) : Bool :=
  isDigitPart c || ('a' ≤ c && c ≤ 'f') || ('A' ≤ c && c ≤ 'F')

/-- Length of `e` and a signed run of digits; zero when the digits are missing. -/
def exponentLength : List Char → Nat
  | e :: cs =>
    if e = 'e' || e = 'E' then
      let sign := match cs with
        | s :: _ => if s = '+' || s = '-' then 1 else 0
        | [] => 0
      let digits := run Char.isDigit (cs.drop sign)
      if digits = 0 then 0 else 1 + sign + digits
    else 0
  | [] => 0

def bigMarkLength : List Char → Nat
  | 'n' :: _ => 1
  | _ => 0

def fractionLength : List Char → Nat
  | '.' :: cs => 1 + run isDigitPart cs
  | _ => 0

/-- Length of the rest of a decimal number after its first digit. -/
def decimalLength (cs : List Char) : Nat :=
  let whole := run isDigitPart cs
  let fraction := fractionLength (cs.drop whole)
  let exponent := exponentLength (cs.drop (whole + fraction))
  whole + fraction + exponent + bigMarkLength (cs.drop (whole + fraction + exponent))

/-- Length of `x1f`, `o17` or `b101` after a zero; nothing when the digits are missing. -/
def radixLength? : List Char → Option Nat
  | x :: cs =>
    if x ∈ ['x', 'X', 'o', 'O', 'b', 'B'] then
      let digits := run isRadixDigitPart cs
      if digits = 0 then none else some (1 + digits + bigMarkLength (cs.drop digits))
    else none
  | [] => none

def numberLength (first : Char) (cs : List Char) : Nat :=
  match if first = '0' then radixLength? cs else none with
  | some n => n
  | none => decimalLength cs

/-- Length of a number that starts with a point, after the point. -/
def pointNumberLength? : List Char → Option Nat
  | d :: cs =>
    if d.isDigit then
      let digits := run isDigitPart cs
      some (1 + digits + exponentLength (cs.drop digits))
    else none
  | [] => none

/-- Length of a string after its opening quote, and whether its closing quote was found. Without
one it ends where it cannot go on: at a line feed, or at a backslash that is the last character. A
backslash takes any other character with it, a line feed too. -/
def stringLength (quote : Char) : List Char → Bool × Nat
  | [] => (false, 0)
  | '\\' :: [] => (false, 0)
  | '\\' :: _ :: cs =>
    let (closed, n) := stringLength quote cs
    (closed, n + 2)
  | c :: cs =>
    if c = quote then (true, 1)
    else if c = '\n' then (false, 0)
    else
      let (closed, n) := stringLength quote cs
      (closed, n + 1)

/-- Length of a block comment after its opening, through the first closing mark. -/
def commentLength? : List Char → Option Nat
  | [] => none
  | '*' :: '/' :: _ => some 2
  | _ :: cs => (commentLength? cs).map (· + 1)

/-- Punctuation and operators, each before those it starts with. The sign `>` always stands alone,
so nested type argument lists can be closed one by one. -/
def symbols : List (List Char × Kind) :=
  [(['*', '*', '='], .operator), (['&', '&', '='], .operator), (['|', '|', '='], .operator),
    (['?', '?', '='], .operator), (['=', '=', '='], .operator), (['!', '=', '='], .operator),
    (['<', '<', '='], .operator), (['.', '.', '.'], .ellipsis),
    (['?', '.'], .questionDot), (['=', '>'], .arrow), (['*', '*'], .operator),
    (['+', '+'], .operator), (['-', '-'], .operator), (['+', '='], .operator),
    (['-', '='], .operator), (['*', '='], .operator), (['/', '='], .operator),
    (['%', '='], .operator), (['^', '='], .operator), (['&', '='], .operator),
    (['|', '='], .operator), (['&', '&'], .operator), (['|', '|'], .operator),
    (['?', '?'], .operator), (['=', '='], .operator), (['!', '='], .operator),
    (['<', '='], .operator), (['<', '<'], .operator),
    (['+'], .operator), (['-'], .operator), (['/'], .operator), (['%'], .operator),
    (['^'], .operator), (['~'], .operator), (['('], .openParen), ([')'], .closeParen),
    (['['], .openBracket), ([']'], .closeBracket), (['\x7b'], .openBrace),
    (['\x7d'], .closeBrace), (['<'], .lessThan), (['>'], .greaterThan), (['.'], .dot),
    ([','], .comma), ([';'], .semicolon), ([':'], .colon), (['?'], .question), (['!'], .bang),
    (['@'], .atSign), (['*'], .asterisk), (['='], .equals), (['|'], .pipe), (['&'], .ampersand),
    (['\x60'], .template)]

/-- The longest symbol at the front; what is no symbol is unknown. -/
def symbol (cs : List Char) : Kind × Nat :=
  match symbols.find? fun (text, _) => text.isPrefixOf cs with
  | some (text, kind) => (kind, text.length - 1)
  | none => (.unknown, 0)

/-- The kind of the token that starts with `c`, and the number of its characters after `c`. A
template literal is only its backtick here: where it ends depends on the braces around it. -/
def token (c : Char) (cs : List Char) : Kind × Nat :=
  if isSpace c then (.whitespace, run isSpace cs)
  else if isIdentifierStart c then (.identifier, run isIdentifierPart cs)
  else if c.isDigit then (.number, numberLength c cs)
  else if c = '"' || c = '\'' then
    let (closed, n) := stringLength c cs
    (if closed then .string else .unknown, n)
  else match c, cs with
    | '/', '/' :: ds => (.lineComment, 1 + run (· ≠ '\n') ds)
    | '/', '*' :: ds =>
      match commentLength? ds with
      | some n => (.blockComment, 1 + n)
      | none => (.unknown, cs.length)
    | '#', d :: ds =>
      if isNameStart d then (.privateName, 1 + run isPrivateNamePart ds) else (.unknown, 0)
    | '.', ds =>
      match pointNumberLength? ds with
      | some n => (.number, n)
      | none => symbol (c :: cs)
    | _, _ => symbol (c :: cs)

end TwinClasses.Scan
