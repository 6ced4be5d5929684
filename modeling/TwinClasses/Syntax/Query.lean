import TwinClasses.Syntax.SourceFile

set_option autoImplicit false

/-! Classes of a file. A class inside another is not looked for, and neither is a class that is a
value. -/

namespace TwinClasses

mutual

/-- The class declarations of the node, in the order of the source. -/
def Node.classes : Node → List ClassDecl
  | .classDecl c => if c.isExpression then [] else [c]
  | .group g => g.classes
  | .forOf _ _ head => head.classes
  | .await _ operand => Node.classesAll operand
  | .token _ | .access .. | .typeRef _ => []

def Node.classesAll : List Node → List ClassDecl
  | [] => []
  | n :: ns => n.classes ++ Node.classesAll ns

def Group.classes : Group → List ClassDecl
  | ⟨_, _, children, _⟩ => Node.classesAll children

end

def SourceFile.classes (f : SourceFile) : List ClassDecl := Node.classesAll f.nodes

def SourceFile.lookupClass? (f : SourceFile) (name : String) : Option ClassDecl :=
  f.classes.find? (·.givenName? = some name)

def ClassDecl.overloads (c : ClassDecl) (name : String) : List Method :=
  c.members.filterMap fun
    | .method m => if m.name.identifier? = some name then some m else none
    | .getter _ | .other _ => none

end TwinClasses
