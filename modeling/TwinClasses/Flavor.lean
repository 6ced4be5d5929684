set_option autoImplicit false

/-! The two classes that a template is expanded to. -/

namespace TwinClasses

inductive Flavor where
  | synchronous
  | asynchronous
  deriving DecidableEq, Repr

def Flavor.name : Flavor → String
  | synchronous => "synchronous"
  | asynchronous => "asynchronous"

end TwinClasses
