import TwinClasses.Expansion.Naming
import TwinClasses.Syntax.Tokens

set_option autoImplicit false

/-! Template methods by their return type. A method is accepted if it has a name that can be written
in a message, a return type that is a plain reference, and a body; its return type then says how it
is expanded. -/

namespace TwinClasses

inductive Strategy where
  | aggregate
  /-- A sequence, with or without a wrapper around the method that produces it. -/
  | stream (wrapper : Bool)
  deriving DecidableEq, Repr

/-- A template method that has been accepted. -/
structure TemplateMethod where
  method : Method
  /-- The name as it stands in messages. -/
  name : String
  /-- The token in front of the return type. -/
  colon : Token
  returnType : TypeRef
  body : Group
  strategy : Strategy

/-- The name as it stands in messages: an identifier or `[Symbol.xyz]`. -/
def MemberName.printable : MemberName → Except ExpansionError String
  | .identifier t => .ok t.text
  | .literal t => .error (.invalidMethodName t.text)
  | .computed g =>
    match g.children with
    | [.access object _ name] =>
      if object.text = "Symbol" then .ok ("[Symbol." ++ name.text ++ "]")
      else .error (.invalidMethodName (Text.trim g.source))
    | _ => .error (.invalidMethodName (Text.trim g.source))

/-- The return type of one eventual value. -/
def valueType : String := "Promise"

/-- The return type of a sequence that may be wrapped. -/
def sequenceType : String := "AsyncIterable"

/-- Return types of sequences that are never wrapped. -/
def bareSequenceTypes : List String := ["AsyncIterator", "AsyncSortedEnumerable"]

/-- The strategy for a return type; `marked` methods ask for a wrapper. -/
def Strategy.ofReturnType (naming : Naming) (method identifier : String) (marked : Bool) :
    Except ExpansionError Strategy :=
  if identifier = naming.wrapperPlaceholder then .ok (.stream true)
  else if identifier = sequenceType then .ok (.stream marked)
  else if identifier = valueType || identifier ∈ bareSequenceTypes then
    if marked then .error (.markerOnUnwrappable method naming.wrapperMarker identifier)
    else if identifier = valueType then .ok .aggregate
    else .ok (.stream false)
  else .error (.unknownReturnType method identifier)

def TemplateMethod.ofMethod (naming : Naming) (m : Method) :
    Except ExpansionError TemplateMethod := do
  let name ← m.name.printable
  match m.returnType with
  | none => throw (.missingReturnType name)
  | some ⟨colon, type⟩ =>
    match typeReference? type with
    | none => throw (.nonReferenceReturnType name)
    | some returnType =>
      match returnType.identifier? with
      | none => throw (.qualifiedReturnType name returnType.fullName)
      | some identifier =>
        match m.body with
        | none => throw (.missingBody name)
        | some body =>
          let strategy ← Strategy.ofReturnType naming name identifier.text
            (m.isDecorated naming.wrapperMarker)
          return ⟨m, name, colon, returnType, body, strategy⟩

end TwinClasses
