set_option autoImplicit false

/-! Why a template cannot be expanded. -/

namespace TwinClasses

inductive ExpansionError where
  | missingReturnType (method : String)
  | nonReferenceReturnType (method : String)
  | qualifiedReturnType (method name : String)
  | missingBody (method : String)
  | unknownReturnType (method identifier : String)
  | missingTypeArgument (method identifier : String)
  | markerOnUnwrappable (method marker identifier : String)
  | accessorWithoutBody (accessor : String)
  | accessorReturnType (accessor : String)
  | invalidMethodName (name : String)
  | nonIdentifierMethodName (method : String)
  | nonIdentifierParameter (method : String)
  | anonymousClass (file : String)
  | anonymousTemplateClass (file : String)
  | duplicateTemplateClass (name : String)
  | templateClassNotFound (expected target : String)
  | namingConvention (className start : String)
  deriving DecidableEq, Repr

def ExpansionError.message : ExpansionError → String
  | missingReturnType method =>
    s!"Implementation method {method}() must have an explicit return type."
  | nonReferenceReturnType method =>
    s!"Implementation method {method}() must use a type reference as its return type."
  | qualifiedReturnType method name =>
    s!"Implementation method {method}() must not use the qualified name {name} as its return type."
  | missingBody method => s!"Implementation method {method}() must have a body."
  | unknownReturnType method identifier =>
    s!"Implementation method {method}() has unknown return type {identifier}."
  | missingTypeArgument method identifier =>
    s!"{identifier} in {method}() must be used with a type argument."
  | markerOnUnwrappable method marker identifier =>
    s!"Implementation method {method}() is marked @{marker} but returns {identifier}, " ++
      "which cannot be wrapped."
  | accessorWithoutBody accessor => s!"Accessor {accessor} must have a body."
  | accessorReturnType accessor =>
    s!"Accessor {accessor} must declare its return type with a type reference."
  | invalidMethodName name =>
    s!"Only identifiers and [Symbol.xyz] are allowed as method names, found {name}."
  | nonIdentifierMethodName method =>
    s!"Method {method} needs a wrapper and must use an identifier as its name."
  | nonIdentifierParameter method =>
    s!"Method {method}() needs a wrapper and must use identifiers as parameter names."
  | anonymousClass file => s!"Class declaration in {file} must have a name."
  | anonymousTemplateClass file => s!"Template file {file} must not contain anonymous classes."
  | duplicateTemplateClass name => s!"Template class {name} is declared more than once."
  | templateClassNotFound expected target =>
    s!"Expected class {expected} in the template file for {target}, but no such class is defined."
  | namingConvention className start =>
    s!"Class {className} must start with {start} to be generated as an asynchronous class."

end TwinClasses
