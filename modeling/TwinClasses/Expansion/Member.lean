import TwinClasses.Expansion.SyncForm
import TwinClasses.Expansion.Wrapper

set_option autoImplicit false

/-! Template members expanded for either flavour. The template is asynchronous, so its members are
copied for the asynchronous class, and converted for the synchronous one. -/

namespace TwinClasses

structure Conventions where
  naming : Naming := {}
  types : TypeTable := {}
  deriving DecidableEq, Repr

/-- The synchronous copy of a method. Only a generator keeps its `*`. -/
def TemplateMethod.toSync (types : TypeTable) (t : TemplateMethod) (generator : Bool) :
    Except ExpansionError Method := do
  let name ← t.method.name.toSync types t.name
  let typeParameters ← Node.toSyncAll types t.name t.method.typeParameters
  let parameters ← t.method.parameters.toSync types t.name
  let returnType ← t.returnType.returnTypeToSync types t.name
  let body ← t.body.toSync types t.name
  return Method.spaceHeader { t.method with
    decorators := []
    modifiers := dropModifier "async" t.method.modifiers
    asterisk := if generator then t.method.asterisk else none
    name
    typeParameters
    parameters
    returnType := some ⟨t.colon, returnType⟩
    body := some body }

/-- What takes the place of an accepted method in the synchronous class. -/
def TemplateMethod.expandSync (conventions : Conventions) (owner : String) (t : TemplateMethod) :
    Except ExpansionError (List Member) := do
  let types := conventions.types
  match t.strategy with
  | .aggregate => return [.method (← t.toSync types false)]
  | .stream false => return [.method (← t.toSync types true)]
  | .stream true =>
    t.withWrapper conventions.naming {
      owner
      sequence := types.syncSequence
      implModifiers := asPrivate (dropModifier "async" t.method.modifiers)
      typeParameters := ← Node.toSyncAll types t.name t.method.typeParameters
      parameters := ← t.method.parameters.toSync types t.name
      body := ← t.body.toSync types t.name }

/-- What takes the place of an accepted method in the asynchronous class. -/
def TemplateMethod.expandAsync (conventions : Conventions) (owner : String) (t : TemplateMethod) :
    Except ExpansionError (List Member) :=
  match t.strategy with
  | .aggregate =>
    .ok [.method (Method.spaceHeader { t.method with
      decorators := []
      modifiers := asPublicAsync t.method.modifiers })]
  | .stream false => .ok [.method (Method.spaceHeader { t.method with decorators := [] })]
  | .stream true =>
    t.withWrapper conventions.naming {
      owner
      sequence := conventions.types.asyncSequence
      implModifiers := asPrivate t.method.modifiers
      typeParameters := t.method.typeParameters
      parameters := t.method.parameters
      body := t.body }

def Method.expand (conventions : Conventions) (flavor : Flavor) (owner : String) (m : Method) :
    Except ExpansionError (List Member) := do
  let t ← TemplateMethod.ofMethod conventions.naming m
  match flavor with
  | .synchronous => t.expandSync conventions owner
  | .asynchronous => t.expandAsync conventions owner

def Getter.expandSync (types : TypeTable) (g : Getter) : Except ExpansionError Getter := do
  let name ← g.name.printable
  match g.body with
  | none => throw (.accessorWithoutBody name)
  | some body =>
    match g.returnType.bind fun ⟨colon, type⟩ => (typeReference? type).map (colon, ·) with
    | none => throw (.accessorReturnType name)
    | some (colon, returnType) =>
      if returnType.isQualified then throw (.accessorReturnType name)
      else
        let memberName ← g.name.toSync types name
        let parameters ← g.parameters.toSync types name
        let returnType ← returnType.returnTypeToSync types name
        let body ← body.toSync types name
        return Getter.spaceHeader { g with
          decorators := []
          modifiers := dropModifier "async" g.modifiers
          name := memberName
          parameters
          returnType := some ⟨colon, returnType⟩
          body := some body }

def Getter.expand (conventions : Conventions) (flavor : Flavor) (g : Getter) :
    Except ExpansionError (List Member) :=
  match flavor with
  | .synchronous => return [.getter (← g.expandSync conventions.types)]
  | .asynchronous => .ok [.getter (Getter.spaceHeader { g with decorators := [] })]

/-- The members that a template member expands to; only methods and accessors expand to any. -/
def Member.expand (conventions : Conventions) (flavor : Flavor) (owner : String) :
    Member → Except ExpansionError (List Member)
  | .method m => m.expand conventions flavor owner
  | .getter g => g.expand conventions flavor
  | .other _ => .ok []

end TwinClasses
