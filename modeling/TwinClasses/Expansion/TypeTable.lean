import TwinClasses.Token

set_option autoImplicit false

/-! How asynchronous types correspond to synchronous ones. -/

namespace TwinClasses

inductive ReturnChange where
  /-- Its first type argument takes its place. -/
  | unwrap
  /-- Another name takes the place of its own; the arguments stay. -/
  | rename (name : String)
  deriving DecidableEq, Repr

structure TypeTable where
  /-- Identifiers that change wherever they occur. -/
  renames : List (String × String) :=
    [("AsyncIterable", "Iterable"), ("AsyncSortedEnumerable", "SortedEnumerable"),
      ("AsyncOrSyncIterable", "Iterable")]
  /-- Types that are replaced by their first argument. -/
  unwrapped : List String := ["AsyncOrSync"]
  returnTypes : List (String × ReturnChange) :=
    [("Promise", .unwrap), ("AsyncIterable", .rename "Iterable"),
      ("AsyncIterator", .rename "Iterator"), ("AsyncSortedEnumerable", .rename "SortedEnumerable")]
  /-- What a synchronous implementation returns. -/
  syncSequence : String := "Iterable"
  /-- What an asynchronous implementation returns. -/
  asyncSequence : String := "AsyncIterable"
  deriving DecidableEq, Repr

namespace TypeTable

def rename? (types : TypeTable) (identifier : String) : Option String :=
  types.renames.lookup identifier

def unwraps (types : TypeTable) (identifier : String) : Bool :=
  identifier ∈ types.unwrapped

def returnChange? (types : TypeTable) (identifier : String) : Option ReturnChange :=
  types.returnTypes.lookup identifier

/-- The token with its name changed, if it is an identifier that has another. -/
def rename (types : TypeTable) (t : Token) : Token :=
  if t.kind = .identifier then
    match types.rename? t.text with
    | some name => t.spelled name
    | none => t
  else t

end TypeTable

end TwinClasses
