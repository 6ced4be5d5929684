import TwinClasses.Expansion.Member
import TwinClasses.Syntax.Query

set_option autoImplicit false

/-! Skeleton files and the template classes they are expanded from. A target class keeps its members
and gets those that the members of its template class expand to after them; the rest of a skeleton
stays as it is. -/

namespace TwinClasses

/-- The classes of a template file under their names, each different. -/
structure TemplateClasses where
  classes : List (String × ClassDecl)

namespace TemplateClasses

def find? (templates : TemplateClasses) (name : String) : Option ClassDecl :=
  templates.classes.lookup name

def size (templates : TemplateClasses) : Nat := templates.classes.length

def add (file : String) (templates : TemplateClasses) (c : ClassDecl) :
    Except ExpansionError TemplateClasses :=
  match c.givenName? with
  | none => .error (.anonymousTemplateClass file)
  | some name =>
    if (templates.find? name).isSome then .error (.duplicateTemplateClass name)
    else .ok ⟨templates.classes ++ [(name, c)]⟩

/-- The classes of a file, all of which must have names. -/
def ofFile (template : SourceFile) : Except ExpansionError TemplateClasses :=
  template.classes.foldlM (add template.name) ⟨[]⟩

end TemplateClasses

structure Expansion where
  flavor : Flavor
  templates : TemplateClasses
  conventions : Conventions

namespace Expansion

def generated (e : Expansion) (owner : String) : List Member → Except ExpansionError (List Member)
  | [] => .ok []
  | m :: ms => return (← m.expand e.conventions e.flavor owner) ++ (← e.generated owner ms)

def expand (e : Expansion) (name : String) (c : ClassDecl) : Except ExpansionError ClassDecl := do
  let expected ← e.conventions.naming.templateName e.flavor name
  match e.templates.find? expected with
  | none => throw (.templateClassNotFound expected name)
  | some template => return { c with members := c.members ++ (← e.generated name template.members) }

/-- The declaration, expanded if it is a target. -/
def visitClass (e : Expansion) (file : String) (c : ClassDecl) : Except ExpansionError ClassDecl :=
  if c.isExpression then .ok c
  else
    match c.givenName? with
    | none => .error (.anonymousClass file)
    | some name => if e.conventions.naming.expands name then e.expand name c else .ok c

mutual

/-- The node with its target classes expanded; they are looked for inside of brackets too. -/
def visit (e : Expansion) (file : String) : Node → Except ExpansionError Node
  | .classDecl c => return .classDecl (← e.visitClass file c)
  | .group ⟨d, opening, children, closing⟩ =>
    return .group ⟨d, opening, ← e.visitAll file children, closing⟩
  | n => .ok n

def visitAll (e : Expansion) (file : String) : List Node → Except ExpansionError (List Node)
  | [] => .ok []
  | n :: ns => return (← e.visit file n) :: (← e.visitAll file ns)

end

def run (e : Expansion) (skeleton : SourceFile) : Except ExpansionError SourceFile :=
  return { skeleton with nodes := ← e.visitAll skeleton.name skeleton.nodes }

end Expansion

end TwinClasses
