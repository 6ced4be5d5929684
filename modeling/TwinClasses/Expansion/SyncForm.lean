import TwinClasses.Expansion.Error
import TwinClasses.Expansion.TypeTable
import TwinClasses.Syntax.Leading

set_option autoImplicit false

/-! The synchronous form of asynchronous code. `await` goes, also in front of a loop's head,
`Symbol.asyncIterator` turns into `Symbol.iterator`, identifiers are renamed, and types that may be
asynchronous or not give way to their argument. Whatever takes the place of a dropped token takes
over its trivia, so the code keeps its layout. -/

namespace TwinClasses

def isAsyncIterator (object name : Token) : Bool :=
  object.text = "Symbol" && name.text = "asyncIterator"

mutual

/-- The nodes that take the place of the node; `member` is what messages name. -/
def Node.toSync (types : TypeTable) (member : String) : Node → Except ExpansionError (List Node)
  | .token t => .ok [.token (types.rename t)]
  | .group g => return [.group (← g.toSync types member)]
  | .classDecl c => return [.classDecl (← c.toSync types member)]
  | .forOf keyword none head => return [.forOf keyword none (← head.toSync types member)]
  | .forOf keyword (some awaiting) head => do
    let head ← head.toSync types member
    return [.forOf keyword none { head with opening := head.opening.takeOver awaiting.leading }]
  | .await keyword operand =>
    return Node.takeOver keyword.leading (← Node.toSyncAll types member operand)
  | .access object dot name =>
    if isAsyncIterator object name then .ok [.access object dot (name.spelled "iterator")]
    else .ok [.access (types.rename object) dot name]
  | .typeRef r => r.toSync types member

def Node.toSyncAll (types : TypeTable) (member : String) :
    List Node → Except ExpansionError (List Node)
  | [] => .ok []
  | n :: ns => return (← n.toSync types member) ++ (← Node.toSyncAll types member ns)

def Group.toSync (types : TypeTable) (member : String) : Group → Except ExpansionError Group
  | ⟨delimiter, opening, children, closing⟩ =>
    return ⟨delimiter, opening, ← Node.toSyncAll types member children, closing⟩

def Group.toSyncOption (types : TypeTable) (member : String) :
    Option Group → Except ExpansionError (Option Group)
  | none => .ok none
  | some g => return some (← g.toSync types member)

def Clause.toSync (types : TypeTable) (member : String) : Clause → Except ExpansionError Clause
  | ⟨mark, content⟩ => return ⟨mark, ← Node.toSyncAll types member content⟩

def Clause.toSyncAll (types : TypeTable) (member : String) :
    List Clause → Except ExpansionError (List Clause)
  | [] => .ok []
  | c :: cs => return (← c.toSync types member) :: (← Clause.toSyncAll types member cs)

def Clause.toSyncOption (types : TypeTable) (member : String) :
    Option Clause → Except ExpansionError (Option Clause)
  | none => .ok none
  | some c => return some (← c.toSync types member)

def TypeRef.toSync (types : TypeTable) (member : String) :
    TypeRef → Except ExpansionError (List Node)
  | ⟨name, dot :: path, none⟩ => .ok [.typeRef ⟨name, dot :: path, none⟩]
  | ⟨name, dot :: path, some arguments⟩ =>
    return [.typeRef ⟨name, dot :: path, some (← arguments.toSync types member)⟩]
  | ⟨name, [], none⟩ =>
    if types.unwraps name.text then .error (.missingTypeArgument member name.text)
    else .ok [.typeRef ⟨types.rename name, [], none⟩]
  | ⟨name, [], some arguments⟩ =>
    if types.unwraps name.text then do
      match ← arguments.firstToSync types member with
      | some nodes => .ok (Node.takeOver name.leading nodes)
      | none => .error (.missingTypeArgument member name.text)
    else return [.typeRef ⟨types.rename name, [], some (← arguments.toSync types member)⟩]

def TypeArguments.toSync (types : TypeTable) (member : String) :
    TypeArguments → Except ExpansionError TypeArguments
  | ⟨opening, items, closing⟩ =>
    return ⟨opening, ← TypeArgument.toSyncAll types member items, closing⟩

/-- The first argument alone. -/
def TypeArguments.firstToSync (types : TypeTable) (member : String) :
    TypeArguments → Except ExpansionError (Option (List Node))
  | ⟨_, [], _⟩ => .ok none
  | ⟨_, ⟨type, _⟩ :: _, _⟩ => return some (← Node.toSyncAll types member type)

def TypeArgument.toSync (types : TypeTable) (member : String) :
    TypeArgument → Except ExpansionError TypeArgument
  | ⟨type, comma⟩ => return ⟨← Node.toSyncAll types member type, comma⟩

def TypeArgument.toSyncAll (types : TypeTable) (member : String) :
    List TypeArgument → Except ExpansionError (List TypeArgument)
  | [] => .ok []
  | a :: as => return (← a.toSync types member) :: (← TypeArgument.toSyncAll types member as)

def ClassDecl.toSync (types : TypeTable) (member : String) :
    ClassDecl → Except ExpansionError ClassDecl
  | ⟨keyword, name, heritage, opening, members, closing, isExpression⟩ => do
    let members ← Member.toSyncAll types member members
    let heritage ← Node.toSyncAll types member heritage
    return ⟨keyword, name, heritage, opening, members, closing, isExpression⟩

def Member.toSync (types : TypeTable) (member : String) : Member → Except ExpansionError Member
  | .method m => return .method (← m.toSync types member)
  | .getter g => return .getter (← g.toSync types member)
  | .other nodes => return .other (← Node.toSyncAll types member nodes)

def Member.toSyncAll (types : TypeTable) (member : String) :
    List Member → Except ExpansionError (List Member)
  | [] => .ok []
  | m :: ms => return (← m.toSync types member) :: (← Member.toSyncAll types member ms)

def Method.toSync (types : TypeTable) (member : String) : Method → Except ExpansionError Method
  | ⟨leading, decorators, modifiers, asterisk, name, question, typeParameters, parameters,
      returnType, body, terminator⟩ => do
    let decorators ← Clause.toSyncAll types member decorators
    let name ← name.toSync types member
    let typeParameters ← Node.toSyncAll types member typeParameters
    let parameters ← parameters.toSync types member
    let returnType ← Clause.toSyncOption types member returnType
    let body ← Group.toSyncOption types member body
    return ⟨leading, decorators, modifiers, asterisk, name, question, typeParameters, parameters,
      returnType, body, terminator⟩

def Getter.toSync (types : TypeTable) (member : String) : Getter → Except ExpansionError Getter
  | ⟨leading, decorators, modifiers, keyword, name, parameters, returnType, body, terminator⟩ => do
    let decorators ← Clause.toSyncAll types member decorators
    let name ← name.toSync types member
    let parameters ← parameters.toSync types member
    let returnType ← Clause.toSyncOption types member returnType
    let body ← Group.toSyncOption types member body
    return ⟨leading, decorators, modifiers, keyword, name, parameters, returnType, body, terminator⟩

def MemberName.toSync (types : TypeTable) (member : String) :
    MemberName → Except ExpansionError MemberName
  | .identifier t => .ok (.identifier t)
  | .literal t => .ok (.literal t)
  | .computed g => return .computed (← g.toSync types member)

def ParameterList.toSync (types : TypeTable) (member : String) :
    ParameterList → Except ExpansionError ParameterList
  | ⟨opening, items, closing⟩ =>
    return ⟨opening, ← Parameter.toSyncAll types member items, closing⟩

def Parameter.toSync (types : TypeTable) (member : String) :
    Parameter → Except ExpansionError Parameter
  | ⟨modifiers, rest, binding, question, type, initializer, comma⟩ => do
    let binding ← binding.toSync types member
    let type ← Clause.toSyncOption types member type
    let initializer ← Clause.toSyncOption types member initializer
    return ⟨modifiers, rest, binding, question, type, initializer, comma⟩

def Parameter.toSyncAll (types : TypeTable) (member : String) :
    List Parameter → Except ExpansionError (List Parameter)
  | [] => .ok []
  | p :: ps => return (← p.toSync types member) :: (← Parameter.toSyncAll types member ps)

def Binding.toSync (types : TypeTable) (member : String) :
    Binding → Except ExpansionError Binding
  | .identifier t => .ok (.identifier t)
  | .pattern g => return .pattern (← g.toSync types member)

end

/-- The synchronous form of a method's return type, which must be one the mapping knows. Its
arguments stay as they were written. -/
def TypeRef.returnTypeToSync (types : TypeTable) (member : String) (r : TypeRef) :
    Except ExpansionError (List Node) :=
  match r.identifier? with
  | none => .error (.unknownReturnType member r.fullName)
  | some name =>
    match types.returnChange? name.text with
    | none => .error (.unknownReturnType member r.fullName)
    | some .unwrap =>
      match r.firstArgument? with
      | some nodes => .ok (Node.takeOver name.leading nodes)
      | none => .error (.missingTypeArgument member name.text)
    | some (.rename newName) => .ok [.typeRef (.named (name.spelled newName) r.arguments)]

end TwinClasses
