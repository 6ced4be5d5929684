import TwinClasses.Token.Kind

set_option autoImplicit false

/-! Ends of template pieces and of regular expressions, the literals that only a reader who knows
what came before can recognise. -/

namespace TwinClasses.Literal

inductive PieceEnd where
  | backtick
  | substitution
  deriving DecidableEq, Repr

/-- The end of a template piece and its length after the first character; nothing when the input
ends inside it. A backslash takes the next character with it. -/
def pieceEnd? : List Char → Option (PieceEnd × Nat)
  | [] => none
  | '\\' :: [] => none
  | '\\' :: _ :: cs => (pieceEnd? cs).map fun (e, n) => (e, n + 2)
  | '\x60' :: _ => some (.backtick, 1)
  | '$' :: '\x7b' :: _ => some (.substitution, 2)
  | _ :: cs => (pieceEnd? cs).map fun (e, n) => (e, n + 1)

/-- Length of a regular expression after its opening slash, flags included; nothing when the line or
the input ends first. A slash inside a class does not close it, and a backslash takes the next
character with it. -/
def regexLength? (inClass : Bool) : List Char → Option Nat
  | [] => none
  | '\\' :: [] => none
  | '\\' :: _ :: cs => (regexLength? inClass cs).map (· + 2)
  | c :: cs =>
    if c = '\n' || c = '\r' then none
    else if c = '[' then (regexLength? true cs).map (· + 1)
    else if c = ']' then (regexLength? false cs).map (· + 1)
    else if c = '/' && !inClass then some (1 + (cs.takeWhile Char.isAlpha).length)
    else (regexLength? inClass cs).map (· + 1)

end TwinClasses.Literal
