import TwinClasses.Syntax.Node

set_option autoImplicit false

/-! First tokens of nodes and members, and the trivia in front of them. -/

namespace TwinClasses

def Node.first : Node → Token
  | .token t => t
  | .group g => g.opening
  | .classDecl c => c.keyword
  | .forOf keyword _ _ => keyword
  | .await keyword _ => keyword
  | .access object _ _ => object
  | .typeRef r => r.name

def Node.mapFirst (f : Token → Token) : Node → Node
  | .token t => .token (f t)
  | .group g => .group { g with opening := f g.opening }
  | .classDecl c => .classDecl { c with keyword := f c.keyword }
  | .forOf keyword awaiting head => .forOf (f keyword) awaiting head
  | .await keyword operand => .await (f keyword) operand
  | .access object dot name => .access (f object) dot name
  | .typeRef r => .typeRef { r with name := f r.name }

theorem Node.first_mapFirst (f : Token → Token) (n : Node) : (n.mapFirst f).first = f n.first := by
  cases n <;> rfl

/-- The token that takes the place of a dropped one with the given trivia. -/
def Token.takeOver (dropped : String) (t : Token) : Token :=
  t.ledBy (mergeTrivia dropped t.leading)

/-- The nodes that take the place of a dropped token with the given trivia. -/
def Node.takeOver (dropped : String) : List Node → List Node
  | [] => []
  | n :: ns => n.mapFirst (Token.takeOver dropped) :: ns

def MemberName.first : MemberName → Token
  | .identifier t | .literal t => t
  | .computed g => g.opening

def MemberName.mapFirst (f : Token → Token) : MemberName → MemberName
  | .identifier t => .identifier (f t)
  | .literal t => .literal (f t)
  | .computed g => .computed { g with opening := f g.opening }

namespace Method

def first (m : Method) : Token :=
  match m.decorators, m.modifiers, m.asterisk with
  | decorator :: _, _, _ => decorator.mark
  | [], modifier :: _, _ => modifier
  | [], [], some asterisk => asterisk
  | [], [], none => m.name.first

def mapFirst (f : Token → Token) (m : Method) : Method :=
  match m.decorators, m.modifiers, m.asterisk with
  | decorator :: decorators, _, _ =>
    { m with decorators := { decorator with mark := f decorator.mark } :: decorators }
  | [], modifier :: modifiers, _ => { m with modifiers := f modifier :: modifiers }
  | [], [], some asterisk => { m with asterisk := some (f asterisk) }
  | [], [], none => { m with name := m.name.mapFirst f }

/-- The method with the trivia of its first token moved in front of it. -/
def hoistLeading (m : Method) : Method :=
  { m.mapFirst (·.ledBy "") with leading := m.first.leading }

end Method

namespace Getter

def first (g : Getter) : Token :=
  match g.decorators, g.modifiers with
  | decorator :: _, _ => decorator.mark
  | [], modifier :: _ => modifier
  | [], [] => g.keyword

def mapFirst (f : Token → Token) (g : Getter) : Getter :=
  match g.decorators, g.modifiers with
  | decorator :: decorators, _ =>
    { g with decorators := { decorator with mark := f decorator.mark } :: decorators }
  | [], modifier :: modifiers => { g with modifiers := f modifier :: modifiers }
  | [], [] => { g with keyword := f g.keyword }

/-- The accessor with the trivia of its first token moved in front of it. -/
def hoistLeading (g : Getter) : Getter :=
  { g.mapFirst (·.ledBy "") with leading := g.first.leading }

end Getter

end TwinClasses
