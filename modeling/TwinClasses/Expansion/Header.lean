import TwinClasses.Syntax.Leading

set_option autoImplicit false

/-! Modifiers of generated members, and the blanks between the tokens in front of a name. -/

namespace TwinClasses

def dropModifier (word : String) (modifiers : List Token) : List Token :=
  modifiers.filter fun t => !t.isWord word

def visibilityWords : List String := ["public", "private", "protected"]

/-- The given visibility in place of what visibility the modifiers have. -/
def setVisibility (visibility : String) (modifiers : List Token) : List Token :=
  .identifier "" visibility :: modifiers.filter (·.text ∉ visibilityWords)

def asPrivate (modifiers : List Token) : List Token := setVisibility "private" modifiers

/-- Public, and `async` at the end unless it is there already. -/
def asPublicAsync (modifiers : List Token) : List Token :=
  let modifiers := setVisibility "public" modifiers
  if modifiers.any (·.isWord "async") then modifiers else modifiers ++ [.identifier " " "async"]

/-- The token apart from the one before it. -/
def Token.spaced (t : Token) : Token := if t.isAttached then t.ledBy " " else t

/-- The token, first in its member or not: the first has no trivia, since the member has it. -/
def Token.placed (first : Bool) (t : Token) : Token :=
  if first then t.ledBy "" else t.spaced

def spaceOut : List Token → List Token
  | [] => []
  | t :: ts => t.ledBy "" :: ts.map Token.spaced

/-- The method with the tokens up to its name apart from each other; the name sticks to a `*`. -/
def Method.spaceHeader (m : Method) : Method :=
  { m with
    modifiers := spaceOut m.modifiers
    asterisk := m.asterisk.map (Token.placed m.modifiers.isEmpty)
    name := m.name.mapFirst (Token.placed (m.asterisk.isSome || m.modifiers.isEmpty)) }

/-- The accessor with the tokens up to its name apart from each other. -/
def Getter.spaceHeader (g : Getter) : Getter :=
  { g with
    modifiers := spaceOut g.modifiers
    keyword := g.keyword.placed g.modifiers.isEmpty
    name := g.name.mapFirst Token.spaced }

end TwinClasses
