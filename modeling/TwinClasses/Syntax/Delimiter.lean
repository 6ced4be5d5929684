import TwinClasses.Token.Kind

set_option autoImplicit false

/-! The brackets that enclose groups. A template literal with substitutions is a group too: its head
opens it and its tail closes it. -/

namespace TwinClasses

inductive Delimiter where
  | paren
  | bracket
  | brace
  | template
  deriving DecidableEq, Repr

namespace Delimiter

def all : List Delimiter := [paren, bracket, brace, template]

def name : Delimiter → String
  | paren => "paren"
  | bracket => "bracket"
  | brace => "brace"
  | template => "template"

def ofName? (s : String) : Option Delimiter := all.find? (·.name = s)

def openKind : Delimiter → Kind
  | paren => .openParen
  | bracket => .openBracket
  | brace => .openBrace
  | template => .templateHead

def closeKind : Delimiter → Kind
  | paren => .closeParen
  | bracket => .closeBracket
  | brace => .closeBrace
  | template => .templateTail

def openText : Delimiter → String
  | paren => "("
  | bracket => "["
  | brace => "\x7b"
  | template => "`$\x7b"

def closeText : Delimiter → String
  | paren => ")"
  | bracket => "]"
  | brace => "\x7d"
  | template => "\x7d`"

def ofOpenKind? : Kind → Option Delimiter
  | .openParen => some paren
  | .openBracket => some bracket
  | .openBrace => some brace
  | .templateHead => some template
  | _ => none

theorem ofOpenKind?_eq_some_iff {k : Kind} {d : Delimiter} :
    ofOpenKind? k = some d ↔ k = d.openKind := by
  cases k <;> cases d <;> simp [ofOpenKind?, openKind]

theorem closeKind_isCloseBracket (d : Delimiter) : d.closeKind.isCloseBracket = true := by
  cases d <;> rfl

end Delimiter

end TwinClasses
