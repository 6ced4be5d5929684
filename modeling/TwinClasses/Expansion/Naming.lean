import TwinClasses.Flavor
import TwinClasses.Expansion.Error

set_option autoImplicit false

/-! How the names of target classes, template classes and generated methods go together. -/

namespace TwinClasses

structure Naming where
  /-- Classes whose name ends so are expanded. -/
  targetSuffix : String := "Enumerable"
  /-- Every asynchronous target starts so. -/
  asyncStart : String := "Async"
  /-- Makes the name of a template class from that of a target. -/
  templateSuffix : String := "Template"
  /-- Makes the name of an implementation from that of its wrapper. -/
  implSuffix : String := "Impl"
  /-- The decorator of methods that need a wrapper. -/
  wrapperMarker : String := "enumerableWrapper"
  /-- The return type that says the same as the decorator. -/
  wrapperPlaceholder : String := "WrapWithAsyncEnumerable"
  deriving DecidableEq, Repr

namespace Naming

def expands (naming : Naming) (className : String) : Bool :=
  naming.targetSuffix.toList.isSuffixOf className.toList

/-- The class that a target is expanded from. An asynchronous target shares it with the synchronous
target whose name lacks the start. -/
def templateName (naming : Naming) (flavor : Flavor) (className : String) :
    Except ExpansionError String :=
  match flavor with
  | .synchronous => .ok (className ++ naming.templateSuffix)
  | .asynchronous =>
    if naming.asyncStart.toList.isPrefixOf className.toList then
      .ok (String.ofList (className.toList.drop naming.asyncStart.toList.length)
        ++ naming.templateSuffix)
    else .error (.namingConvention className naming.asyncStart)

def implementationName (naming : Naming) (methodName : String) : String :=
  methodName ++ naming.implSuffix

/-- The two targets of a template share it. -/
theorem templateName_asynchronous (naming : Naming) (className : String) :
    naming.templateName .asynchronous (naming.asyncStart ++ className)
      = naming.templateName .synchronous className := by
  simp [templateName, String.toList_append]

end Naming

end TwinClasses
