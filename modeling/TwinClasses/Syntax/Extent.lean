import TwinClasses.Syntax.Node
import TwinClasses.Syntax.Reading

set_option autoImplicit false

/-! How far constructs without brackets of their own reach, and which trees may begin, continue or
follow them. Lengths count trees at the front of a list. -/

namespace TwinClasses

namespace Extent

/-! Types -/

/-- Keywords in front of an operand of a type. -/
def operandPrefixes : List String := ["keyof", "readonly", "unique"]

/-- Keywords in front of a type without index brackets. -/
def primaryPrefixes : List String := ["new", "abstract", "asserts"]

/-- Names of types that no declaration gives a meaning. -/
def builtinTypes : List String :=
  ["any", "unknown", "never", "void", "undefined", "null", "string", "number", "boolean", "bigint",
    "symbol", "object", "true", "false"]

/-- The dots with the names after them that qualify a type name. -/
def qualifiers : List Tree → List (Token × Token)
  | .token dot :: .token name :: ts =>
    if dot.kind = .dot && name.kind = .identifier then
      (dot.toToken, name.toToken) :: qualifiers ts
    else []
  | _ => []

/-- Length through the `>` that closes `depth` lists; nothing when the trees end first. -/
def angleLength? : Nat → List Tree → Option Nat
  | 0, _ => some 0
  | _ + 1, [] => none
  | depth + 1, t :: ts =>
    let depth :=
      if t.isKind .lessThan then depth + 2
      else if t.isKind .greaterThan then depth
      else depth + 1
    (angleLength? depth ts).map (· + 1)

/-- Words that may come after a type argument list in an expression or a heritage clause. -/
def wordsAfterType : List String := ["implements", "extends", "as", "satisfies"]

/-- The trees go on as something may after a type argument list. -/
def mayFollowType : List Tree → Bool
  | .token l :: _ =>
    l.toToken.opensLine
      || l.kind ∈ [.comma, .semicolon, .equals, .pipe, .ampersand, .greaterThan, .arrow, .question,
        .colon, .templateMiddle]
      || (l.kind = .identifier && l.text ∈ wordsAfterType)
  | _ => true

/-! Operands of `await` -/

/-- Identifiers that never start an operand. -/
def connectives : List String := ["in", "of", "instanceof", "as", "satisfies"]

def unaryWords : List String := ["typeof", "void", "delete", "await", "new"]

def isUnaryOperator : Tree → Bool
  | .token l =>
    match l.kind with
    | .bang => true
    | .operator => l.text ∈ ["-", "+", "~", "++", "--"]
    | .identifier => l.text ∈ unaryWords
    | _ => false
  | .group .. => false

/-- A tree that an operand may consist of, its prefix operators and what is chained to it aside. -/
def isOperandCore : Tree → Bool
  | .token l =>
    match l.kind with
    | .identifier => l.text ∉ connectives
    | .privateName => true
    | kind => kind.isLiteral
  | .group .. => true

def isMemberName : Tree → Bool
  | .token l => l.kind = .identifier || l.kind = .privateName
  | .group .. => false

/-- A tree that may stand after `?.`: a name, or the brackets of a call or an index. -/
def isOptionalLink : Tree → Bool
  | .group d _ _ _ => d ≠ .brace
  | t => isMemberName t

/-! Classes -/

/-- Whether a class may begin with these trees after its keyword, and its name if it has one. -/
def className? : List Tree → Option (Option Token)
  | [] => none
  | .group .. :: _ => some none
  | .token l :: _ =>
    if l.kind = .identifier then
      some (if l.text = "extends" || l.text = "implements" then none else some l.toToken)
    else if l.kind = .lessThan then some none
    else none

/-- A class body with the trees before it and after it. -/
structure BodySplit (ts : List Tree) where
  heritage : List Tree
  opening : Lexeme
  children : List Tree
  closing : Lexeme
  rest : List Tree
  eq : ts = heritage ++ .group .brace opening children closing :: rest

def BodySplit.cons {ts : List Tree} (t : Tree) (s : BodySplit ts) : BodySplit (t :: ts) :=
  { s with heritage := t :: s.heritage, eq := by rw [List.cons_append, ← s.eq] }

theorem BodySplit.follows {ts : List Tree} (s : BodySplit ts) : Follows s.rest ts :=
  (Follows.tail_of_cons _ s.rest).of_suffix_right ⟨s.heritage, s.eq.symm⟩

theorem BodySplit.weight_lt {ts : List Tree} (s : BodySplit ts) :
    Tree.weightAll s.heritage + Tree.weightAll s.children < Tree.weightAll ts := by
  have h := congrArg Tree.weightAll s.eq
  rw [Tree.weightAll_append, Tree.weightAll_cons, Tree.weight_group] at h
  omega

grind_pattern BodySplit.weight_lt => Tree.weightAll s.heritage

grind_pattern BodySplit.weight_lt => Tree.weightAll s.children

/-- The first braces outside `depth` open type lists, unless a semicolon, an equals sign or a comma
outside of them shows that no class is written here. -/
def splitAtBody? (depth : Nat) : (ts : List Tree) → Option (BodySplit ts)
  | [] => none
  | .group d opening children closing :: ts =>
    if h : d = .brace ∧ depth = 0 then some ⟨[], opening, children, closing, ts, by simp [h.1]⟩
    else (splitAtBody? depth ts).map (.cons _)
  | .token l :: ts =>
    match l.kind with
    | .lessThan => (splitAtBody? (depth + 1) ts).map (.cons _)
    | .greaterThan => (splitAtBody? (depth - 1) ts).map (.cons _)
    | .semicolon | .equals | .comma =>
      if depth = 0 then none else (splitAtBody? depth ts).map (.cons _)
    | _ => (splitAtBody? depth ts).map (.cons _)

/-- Words after which an expression begins. -/
def expressionWords : List String := ["return", "yield", "new", "typeof", "void", "await"]

/-- A class after `last`, the node before it in the sequence enclosed by `parent`, is a value. -/
def isValuePosition (parent : Option Delimiter) (last : Option Node) : Bool :=
  match last with
  | none => parent ∈ [some .paren, some .bracket, some .template]
  | some (.token t) =>
    t.kind ∈ [.equals, .comma, .colon, .question, .arrow, .operator, .bang, .pipe, .ampersand,
      .templateMiddle] || (t.kind = .identifier && t.text ∈ expressionWords)
  | some _ => false

/-- The node is the dot of a member access, so what comes next is a property name. -/
def opensMemberAccess : Node → Bool
  | .token t => t.kind = .dot || t.kind = .questionDot
  | _ => false

/-! Members -/

def memberModifierWords : List String :=
  ["public", "private", "protected", "static", "readonly", "abstract", "async", "override",
    "declare", "accessor"]

/-- The trees begin with what may name a member. -/
def mayNameMember : List Tree → Bool
  | .token l :: _ => l.kind ∈ [.identifier, .string, .number, .privateName, .asterisk]
  | .group d _ _ _ :: _ => d = .bracket
  | [] => false

/-- Modifiers of a member: a word is one only in front of what may name a member. -/
def modifiersOfMember : List Tree → List Token
  | .token l :: ts =>
    if l.kind = .identifier && l.text ∈ memberModifierWords && mayNameMember ts then
      l.toToken :: modifiersOfMember ts
    else []
  | _ => []

structure MemberHead where
  modifiers : List Token
  accessor : Option Token
  asterisk : Option Token

def MemberHead.length (h : MemberHead) : Nat :=
  h.modifiers.length + h.accessor.toList.length + h.asterisk.toList.length

/-- The word `get` or `set` in front of what may name a member. -/
def accessorWord? : List Tree → Option Token
  | .token l :: ts =>
    if (l.toToken.isWord "get" || l.toToken.isWord "set") && mayNameMember ts then some l.toToken
    else none
  | _ => none

def memberHead (ts : List Tree) : MemberHead :=
  let modifiers := modifiersOfMember ts
  let ts := ts.drop modifiers.length
  let accessor := accessorWord? ts
  ⟨modifiers, accessor, Tree.frontToken? .asterisk (ts.drop accessor.toList.length)⟩

def decoratorLength : List Tree → Nat
  | .token dot :: .token name :: ts =>
    if dot.kind = .dot && name.kind = .identifier then 2 + decoratorLength ts else 0
  | .group .paren opening _ _ :: ts =>
    if opening.toToken.opensLine then 0 else 1 + decoratorLength ts
  | _ => 0

/-- An expression or a type goes on after this tree, wherever the line ends. -/
def isIncomplete : Tree → Bool
  | .token l =>
    l.kind ∈ [.equals, .arrow, .colon, .comma, .pipe, .ampersand, .operator, .dot, .questionDot,
      .question, .lessThan]
  | .group .. => false

/-- The tree goes on with the expression or the type before it, even on a new line. -/
def isContinuation : Tree → Bool
  | .token l =>
    l.kind ∈ [.arrow, .pipe, .ampersand, .operator, .dot, .questionDot, .question, .colon]
  | .group .. => false

/-- Length of what is left of a property after `previous`: through a semicolon, or up to a line that
does not go on with it. -/
def propertyLength (previous : Option Tree) : List Tree → Nat
  | [] => 0
  | t :: ts =>
    if t.isKind .semicolon then 1
    else if t.opensLine && previous.any (fun p => !(isIncomplete p || isContinuation t)) then 0
    else 1 + propertyLength (some t) ts

/-! Parameters -/

def parameterModifierWords : List String :=
  ["public", "private", "protected", "readonly", "override"]

/-- The trees begin with what a parameter may bind, or with the mark of a rest parameter. -/
def mayBind : List Tree → Bool
  | .token l :: _ => l.kind = .identifier || l.kind = .ellipsis
  | .group d _ _ _ :: _ => d ≠ .paren
  | [] => false

def modifiersOfParameter : List Tree → List Token
  | .token l :: ts =>
    if l.kind = .identifier && l.text ∈ parameterModifierWords && mayBind ts then
      l.toToken :: modifiersOfParameter ts
    else []
  | _ => []

/-- Length of an argument: up to a comma that stands in none of the type lists, `depth` of them
open, that begin directly after an identifier. -/
def argumentLength (depth : Nat) (afterIdentifier : Bool) : List Tree → Nat
  | [] => 0
  | .group .. :: ts => 1 + argumentLength depth false ts
  | .token l :: ts =>
    if l.kind = .comma && depth = 0 then 0
    else
      let depth :=
        if l.kind = .lessThan && afterIdentifier && l.toToken.isAttached then depth + 1
        else if l.kind = .greaterThan then depth - 1
        else depth
      1 + argumentLength depth (l.kind = .identifier) ts

end Extent

end TwinClasses
