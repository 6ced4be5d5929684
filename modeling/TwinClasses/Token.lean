import TwinClasses.Token.Kind
import TwinClasses.Text.Blank

set_option autoImplicit false

/-! Tokens with the trivia in front of them. A token's source is its leading trivia followed by its
text, so the sources of all tokens of a file, and the trivia after the last, make up the file. -/

namespace TwinClasses

/-- A significant token; `leading` holds the whitespace and the comments in front of it. -/
structure Token where
  kind : Kind
  leading : String
  text : String
  deriving DecidableEq, Repr

namespace Token

def identifier (leading text : String) : Token := ⟨.identifier, leading, text⟩

/-- A token that follows the one before it without trivia. -/
def bare (kind : Kind) (text : String) : Token := ⟨kind, "", text⟩

def source (t : Token) : String := t.leading ++ t.text

def isWord (t : Token) (word : String) : Bool := t.kind = .identifier && t.text = word

/-- A line break stands in front of the token. -/
def opensLine (t : Token) : Bool := t.leading.toList.contains '\n'

def isAttached (t : Token) : Bool := t.leading.isEmpty

def spelled (t : Token) (text : String) : Token := { t with text }

def ledBy (t : Token) (leading : String) : Token := { t with leading }

end Token

/-- A token at its place in a source: `offset` is the byte at which its text starts. -/
structure Lexeme extends Token where
  offset : Nat
  deriving DecidableEq, Repr

/-- The trivia of a dropped token in front of the one that takes its place. The dropped token's
trivia wins over mere blanks; comments in front of the replacement stay, after it. -/
def mergeTrivia (dropped replacement : String) : String :=
  if Text.allBlank replacement then dropped else dropped ++ Text.trimStart replacement

theorem mergeTrivia_empty (dropped : String) : mergeTrivia dropped "" = dropped := by
  simp [mergeTrivia, Text.allBlank]

/-- Indentation of a member, read off the last line of its leading trivia; four spaces when that
line holds more than spaces and tabs or no line break comes before it. -/
def indentation (leading : String) : String :=
  let lastLine := (leading.toList.reverse.takeWhile (· ≠ '\n')).reverse
  if leading.toList.contains '\n' && lastLine.all (fun c => c = ' ' || c = '\t') then
    String.ofList lastLine
  else "    "

end TwinClasses
