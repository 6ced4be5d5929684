import TwinClasses.Syntax.Reader

set_option autoImplicit false

/-! A place in a list of bracket trees, for reading it step by step. A step that fails leaves the
cursor where it found the fault. -/

namespace TwinClasses

structure Cursor where
  trees : List Tree
  position : Nat
  /-- Offset of the bracket that closes the trees, where there is one. -/
  closing : Option Nat

namespace Cursor

def ofTrees (trees : List Tree) : Cursor := ⟨trees, 0, none⟩

def ofGroup (children : List Tree) (closing : Lexeme) : Cursor := ⟨children, 0, some closing.offset⟩

def rest (c : Cursor) : List Tree := c.trees.drop c.position

def isAtEnd (c : Cursor) : Bool := c.rest.isEmpty

def peek? (c : Cursor) : Option Tree := c.rest.head?

def peekAt? (c : Cursor) (n : Nat) : Option Tree := c.rest[n]?

def peekToken? (c : Cursor) : Option Token :=
  match c.peek? with
  | some (.token l) => some l.toToken
  | _ => none

def peekGroup? (c : Cursor) (d : Delimiter) : Option Tree := c.peek?.filter (·.isGroup d)

def advance (c : Cursor) : Cursor :=
  if c.isAtEnd then c else { c with position := c.position + 1 }

def moveTo (c : Cursor) (position : Nat) : Cursor := { c with position }

/-- The trees between an earlier position and this one. -/
def since (c : Cursor) (start : Nat) : List Tree := (c.trees.take c.position).drop start

def isAtKind (c : Cursor) (kind : Kind) : Bool := c.peek?.any (·.isKind kind)

def isAtWord (c : Cursor) (word : String) : Bool := c.peek?.any (·.isWord word)

def offset? (c : Cursor) : Option Nat :=
  match c.peek? with
  | some t => some t.first.offset
  | none => c.closing

def unexpected (c : Cursor) (construct : String) : Fault :=
  .unexpectedFront construct c.closing c.rest

/-- Consumes the token ahead if `accepts` holds of the tree. -/
def eat (c : Cursor) (accepts : Tree → Bool) : Option Token × Cursor :=
  if c.peek?.any accepts then (c.peekToken?, c.advance) else (none, c)

def run {α : Type} (c : Cursor) (reader : Option Nat → (ts : List Tree) → Reading α ts) :
    Except Fault α × Cursor :=
  match reader c.closing c.rest with
  | .done a left _ => (.ok a, c.moveTo (c.position + (c.rest.length - left.length)))
  | .failed fault left => (.error fault, c.moveTo (c.position + (c.rest.length - left.length)))

end Cursor

end TwinClasses
