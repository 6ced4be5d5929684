import TwinClasses.Text.Bytes

set_option autoImplicit false

/-! Lines and columns of a text. Both count from one, only a line feed starts a line, and a column
is the distance in bytes from the start of its line. -/

namespace TwinClasses.Text

structure Position where
  line : Nat
  column : Nat
  deriving DecidableEq, Repr

/-- The position right after the given characters. -/
def Position.after (before : List Char) : Position :=
  ⟨before.count '\n' + 1, byteLength (before.reverse.takeWhile (· ≠ '\n')) + 1⟩

/-- The position of a byte offset; an offset past the end is the end. -/
def Position.ofOffset (source : String) (offset : Nat) : Position :=
  .after (takeBytes offset source.toList)

def Position.atEnd (source : String) : Position := .after source.toList

end TwinClasses.Text
