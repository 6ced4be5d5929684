import TwinClasses.Text.Blank
import TwinClasses.Token.Scan

set_option autoImplicit false

/-! JSON as people write it: comments, and a comma before a closing bracket. Both are taken out
before the text is read. -/

namespace TwinClasses.Json

/-- Length of a string after its opening quote, through its closing one. A backslash takes the
character after it with it, which must not be a line feed. -/
def stringLength? : List Char → Option Nat
  | [] => none
  | '"' :: _ => some 1
  | ['\\'] => none
  | '\\' :: c :: cs => if c = '\n' then none else (stringLength? cs).map (· + 2)
  | _ :: cs => (stringLength? cs).map (· + 1)

/-- The text without comments and without commas right before a closing bracket. Strings stay; what
looks like the start of a string or of a block comment but has no end stays too. -/
def withoutNoise : List Char → List Char
  | [] => []
  | '"' :: cs =>
    match stringLength? cs with
    | some n => '"' :: cs.take n ++ withoutNoise (cs.drop n)
    | none => '"' :: withoutNoise cs
  | '/' :: '/' :: cs =>
    have := (cs.dropWhile_sublist (· ≠ '\n')).length_le
    withoutNoise (cs.dropWhile (· ≠ '\n'))
  | '/' :: '*' :: cs =>
    match Scan.commentLength? cs with
    | some n => withoutNoise (cs.drop n)
    | none => '/' :: withoutNoise ('*' :: cs)
  | ',' :: cs =>
    have := (cs.dropWhile_sublist Text.isBlank).length_le
    match _h : cs.dropWhile Text.isBlank with
    | [] => ',' :: withoutNoise cs
    | c :: rest =>
      if c = ']' || c = '\x7d' then cs.takeWhile Text.isBlank ++ c :: withoutNoise rest
      else ',' :: withoutNoise cs
  | c :: cs => c :: withoutNoise cs
termination_by cs => cs.length
decreasing_by all_goals (simp_all; try omega)

/-- The text as strict JSON. A comma may stand before a bracket only once the comments between them
are gone, so this takes two passes. -/
def stripNoise (text : String) : String :=
  String.ofList (withoutNoise (withoutNoise text.toList))

end TwinClasses.Json
