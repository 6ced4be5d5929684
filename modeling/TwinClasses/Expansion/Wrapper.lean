import TwinClasses.Expansion.TemplateMethod
import TwinClasses.Expansion.Header

set_option autoImplicit false

/-! Streams behind a wrapper. The wrapper takes the method's name and returns its owner right away,
made from what a private implementation returns; the implementation has the body. So arguments are
passed on when the method is called, and the sequence is produced when it is asked for. -/

namespace TwinClasses

/-- What the two members of a flavour have in common: their converted parts and their types. -/
structure WrapperParts where
  owner : String
  sequence : String
  implModifiers : List Token
  typeParameters : List Node
  parameters : ParameterList
  body : Group

/-- The bound name of each parameter but `this`, and whether it is a rest parameter. -/
def passedNames (method : String) :
    List Parameter → Except ExpansionError (List (Bool × String))
  | [] => .ok []
  | p :: ps =>
    match p.identifier? with
    | none => .error (.nonIdentifierParameter method)
    | some t => do
      let names ← passedNames method ps
      return if t.text = "this" then names else (p.rest.isSome, t.text) :: names

/-- An argument that passes a parameter on; `leading` stands in front of it. -/
def passedArgument (leading : String) (rest : Bool) (name : String) : List Node :=
  if rest then [.token ⟨.ellipsis, leading, "..."⟩, .token (.identifier "" name)]
  else [.token (.identifier leading name)]

def passedArguments : List (Bool × String) → List Node
  | [] => []
  | (rest, name) :: names =>
    passedArgument "" rest name ++ names.flatMap fun (rest, name) =>
      .token (.bare .comma ",") :: passedArgument " " rest name

/-- Indentation of the statements in a body: that of the first, if it starts a line, or one level
more than the member's. -/
def bodyIndentation (memberIndentation : String) (body : Group) : String :=
  match body.children with
  | n :: _ =>
    if n.first.opensLine then indentation n.first.leading else memberIndentation ++ "    "
  | [] => memberIndentation ++ "    "

/-- A body that returns `new Owner(this.impl(arguments))`. -/
def returnBody (owner impl : String) (arguments : List Node)
    (memberIndentation bodyIndentation : String) : Group :=
  let call := Group.of .paren ""
    [.access (.identifier "" "this") (.bare .dot ".") (.identifier "" impl),
      .group (.of .paren "" arguments "")] ""
  .of .brace " "
    [.token (.identifier ("\n" ++ bodyIndentation) "return"), .token (.identifier " " "new"),
      .token (.identifier " " owner), .group call, .token (.bare .semicolon ";")]
    ("\n" ++ memberIndentation)

def TemplateMethod.withWrapper (naming : Naming) (t : TemplateMethod) (parts : WrapperParts) :
    Except ExpansionError (List Member) := do
  match t.method.name.identifier? with
  | none => throw (.nonIdentifierMethodName t.name)
  | some name =>
    let names ← passedNames t.name parts.parameters.items
    let impl := naming.implementationName name
    let indent := indentation t.method.leading
    let returning (type : String) : Option Clause :=
      some ⟨t.colon, [.typeRef (.named (.identifier " " type) t.returnType.arguments)]⟩
    let wrapper := Method.spaceHeader { t.method with
      decorators := []
      modifiers := dropModifier "async" t.method.modifiers
      asterisk := none
      typeParameters := parts.typeParameters
      parameters := parts.parameters
      returnType := returning parts.owner
      body := some (returnBody parts.owner impl (passedArguments names) indent
        (bodyIndentation indent t.body))
      terminator := none }
    let implementation := Method.spaceHeader { t.method with
      leading := "\n" ++ indent
      decorators := []
      modifiers := parts.implModifiers
      name := .identifier (.identifier "" impl)
      typeParameters := parts.typeParameters
      parameters := parts.parameters
      returnType := returning parts.sequence
      body := some parts.body
      terminator := none }
    return [.method wrapper, .method implementation]

end TwinClasses
