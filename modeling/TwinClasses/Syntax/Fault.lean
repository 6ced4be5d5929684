import TwinClasses.Text.Position

set_option autoImplicit false

/-! Faults of a source: what is wrong with it, and where. -/

namespace TwinClasses

/-- What is wrong; `construct` names the part of the source that was being read. -/
inductive Fault.Cause where
  | unexpected (found construct : String)
  | unexpectedEnd (construct : String)
  | unclosed (opening : String)
  | mismatched (found expected : String)
  deriving DecidableEq, Repr

def Fault.Cause.message : Fault.Cause → String
  | .unexpected found construct => s!"unexpected `{found}` in {construct}"
  | .unexpectedEnd construct => s!"unexpected end of {construct}"
  | .unclosed opening => s!"`{opening}` is never closed"
  | .mismatched found expected => s!"found `{found}` where `{expected}` was expected"

/-- A cause at a byte offset; without one, at the end of the source. -/
structure Fault where
  cause : Fault.Cause
  offset : Option Nat
  deriving DecidableEq, Repr

/-- A fault with the file, the line and the column at which it was found. -/
structure Diagnostic where
  file : String
  position : Text.Position
  cause : Fault.Cause
  deriving DecidableEq, Repr

def Diagnostic.message (d : Diagnostic) : String :=
  s!"{d.file}:{d.position.line}:{d.position.column}: {d.cause.message}"

def Fault.locate (file source : String) (fault : Fault) : Diagnostic :=
  let position := match fault.offset with
    | some offset => .ofOffset source offset
    | none => .atEnd source
  ⟨file, position, fault.cause⟩

end TwinClasses
