import TwinClasses.Token.Lexer
import TwinClasses.Syntax.Reader
import TwinClasses.Syntax.Tokens

set_option autoImplicit false

/-! Source files, read and printed. Printing a file that was read gives back its text, but for the
marks that its accessors have no place for. -/

namespace TwinClasses

structure SourceFile where
  name : String
  nodes : List Node
  /-- The trivia after the last token. -/
  trailing : String

namespace SourceFile

def ofSource (name source : String) : Except Diagnostic SourceFile :=
  let ⟨lexemes, trailing⟩ := Lexer.lexemes source
  match Tree.ofLexemes lexemes >>= Reader.sequence none none with
  | .ok nodes => .ok ⟨name, nodes, trailing⟩
  | .error fault => .error (fault.locate name source)

def source (f : SourceFile) : String := Node.sourceAll f.nodes ++ f.trailing

/-- What comes after the last slash or backslash of the name. -/
def baseName (f : SourceFile) : String :=
  String.ofList (f.name.toList.reverse.takeWhile fun c => c ≠ '/' && c ≠ '\\').reverse

end SourceFile

def Tree.ofSource (name source : String) : Except Diagnostic (List Tree) :=
  (Tree.ofLexemes (Lexer.lexemes source).lexemes).mapError (Fault.locate name source)

/-- The type that some trees consist of. -/
def Node.typeOfTrees (trees : List Tree) : Except Fault (List Node) :=
  match Reader.type none true trees with
  | .done nodes [] _ => .ok nodes
  | .done _ (t :: ts) _ => .error (.unexpectedFront "a type" none (t :: ts))
  | .failed fault _ => .error fault

def Node.typeOfSource (source : String) : Except Diagnostic (List Node) :=
  (Tree.ofLexemes (Lexer.lexemes source).lexemes >>= Node.typeOfTrees).mapError
    (Fault.locate "<type>" source)

def ParameterList.ofGroup (opening : Lexeme) (children : List Tree) (closing : Lexeme) :
    Except Fault ParameterList :=
  (Reader.parameters (some closing.offset) children).map fun items =>
    ⟨opening.toToken, items, closing.toToken⟩

end TwinClasses
