import TwinClasses.Token
import TwinClasses.Syntax.Delimiter

set_option autoImplicit false

/-! Syntax trees. A node sequence is a bracket tree in which the constructs that matter here stand
out: classes and their members, `for … of` heads, awaited operands, property accesses and type
references. All else stays tokens and groups, and nodes own the tokens they were read from; only a
`get` accessor has no place for a `*`, a mark after its name or type parameters. -/

namespace TwinClasses

mutual

inductive Node where
  | token (token : Token)
  | group (group : Group)
  | classDecl (declaration : ClassDecl)
  /-- The head of a `for … of` or `for await … of` loop; the loop's body comes after it. -/
  | forOf (keyword : Token) (awaiting : Option Token) (head : Group)
  | await (keyword : Token) (operand : List Node)
  /-- A property of a bare identifier, `object.name`. -/
  | access (object dot name : Token)
  | typeRef (reference : TypeRef)

structure Group where
  delimiter : Delimiter
  opening : Token
  children : List Node
  closing : Token

/-- Nodes introduced by a mark: `: Type`, `= value` or `@decorator`. -/
structure Clause where
  mark : Token
  content : List Node

/-- A named type, such as `Map<K, V>` or `ns.Name`; `path` holds each dot with the name after it. -/
structure TypeRef where
  name : Token
  path : List (Token × Token)
  arguments : Option TypeArguments

structure TypeArguments where
  opening : Token
  items : List TypeArgument
  closing : Token

structure TypeArgument where
  type : List Node
  comma : Option Token

/-- A class; `heritage` is all that stands between its name and its body. -/
structure ClassDecl where
  keyword : Token
  name : Option Token
  heritage : List Node
  opening : Token
  members : List Member
  closing : Token
  /-- The class is a value, as in `x = class { }`, and no declaration. -/
  isExpression : Bool

/-- A class member; properties, constructors, `set` accessors and index signatures are kept as they
were written. -/
inductive Member where
  | method (method : Method)
  | getter (getter : Getter)
  | other (nodes : List Node)

/-- A method; the trivia in front of it is in `leading`, not in its first token. -/
structure Method where
  leading : String
  decorators : List Clause
  modifiers : List Token
  asterisk : Option Token
  name : MemberName
  /-- The mark after the name, `?` or `!`. -/
  question : Option Token
  typeParameters : List Node
  parameters : ParameterList
  returnType : Option Clause
  body : Option Group
  terminator : Option Token

/-- A `get` accessor; the trivia in front of it is in `leading`, not in its first token. -/
structure Getter where
  leading : String
  decorators : List Clause
  modifiers : List Token
  keyword : Token
  name : MemberName
  parameters : ParameterList
  returnType : Option Clause
  body : Option Group
  terminator : Option Token

inductive MemberName where
  | identifier (token : Token)
  /-- A string, a number or a private name. -/
  | literal (token : Token)
  | computed (group : Group)

structure ParameterList where
  opening : Token
  items : List Parameter
  closing : Token

structure Parameter where
  modifiers : List Token
  rest : Option Token
  binding : Binding
  question : Option Token
  type : Option Clause
  initializer : Option Clause
  comma : Option Token

inductive Binding where
  | identifier (token : Token)
  | pattern (group : Group)

end

/-- A synthesised group; `leading` stands in front of its opening bracket, `closingLeading` in front
of the closing one. -/
def Group.of (delimiter : Delimiter) (leading : String) (children : List Node)
    (closingLeading : String) : Group where
  delimiter := delimiter
  opening := ⟨delimiter.openKind, leading, delimiter.openText⟩
  children := children
  closing := ⟨delimiter.closeKind, closingLeading, delimiter.closeText⟩

namespace TypeRef

def named (name : Token) (arguments : Option TypeArguments) : TypeRef := ⟨name, [], arguments⟩

def isQualified (r : TypeRef) : Bool := !r.path.isEmpty

/-- The tokens of the name: identifiers with dots between them. -/
def nameTokens (r : TypeRef) : List Token := r.name :: r.path.flatMap fun (dot, name) => [dot, name]

def fullName (r : TypeRef) : String := String.join (r.nameTokens.map Token.text)

/-- The identifier of a reference that is not qualified. -/
def identifier? (r : TypeRef) : Option Token := if r.isQualified then none else some r.name

def arity (r : TypeRef) : Nat :=
  match r.arguments with
  | some arguments => arguments.items.length
  | none => 0

def firstArgument? (r : TypeRef) : Option (List Node) :=
  match r.arguments with
  | some ⟨_, argument :: _, _⟩ => some argument.type
  | _ => none

end TypeRef

/-- The reference that a type consists of, if it is nothing more. -/
def typeReference? : List Node → Option TypeRef
  | [.typeRef reference] => some reference
  | _ => none

def ClassDecl.givenName? (c : ClassDecl) : Option String := c.name.map Token.text

def MemberName.identifier? : MemberName → Option String
  | .identifier t => some t.text
  | .literal _ | .computed _ => none

def Parameter.identifier? (p : Parameter) : Option Token :=
  match p.binding with
  | .identifier t => some t
  | .pattern _ => none

/-- The identifier of a decorator that is nothing more than one. -/
def Clause.identifier? (c : Clause) : Option String :=
  match c.content with
  | [.token t] => if t.kind = .identifier then some t.text else none
  | _ => none

namespace Method

def isModified (m : Method) (word : String) : Bool := m.modifiers.any (·.text = word)

def isDecorated (m : Method) (name : String) : Bool := m.decorators.any (·.identifier? = some name)

end Method

end TwinClasses
