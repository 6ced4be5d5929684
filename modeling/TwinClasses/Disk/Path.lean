set_option autoImplicit false

/-! Paths. A path is kept as the text it was built with, since that is how it is shown; where paths
are compared, their components are. -/

namespace TwinClasses

/-- The parts between slashes; there is always one. -/
def splitSlash : List Char → List (List Char)
  | [] => [[]]
  | c :: cs =>
    if c = '/' then [] :: splitSlash cs
    else
      match splitSlash cs with
      | [] => [[c]]
      | s :: ss => (c :: s) :: ss

theorem splitSlash_ne_nil (cs : List Char) : splitSlash cs ≠ [] := by
  cases cs with
  | nil => simp [splitSlash]
  | cons c cs =>
    simp only [splitSlash]
    split
    · simp
    · split <;> simp

structure Path where
  text : String
  deriving DecidableEq, Repr

namespace Path

inductive Component where
  | root
  | here
  | up
  | name (text : String)
  deriving DecidableEq, Repr, Ord

def isAbsolute (p : Path) : Bool := p.text.toList.head? = some '/'

def endsWithSlash (p : Path) : Bool := p.text.toList.getLast? = some '/'

/-- The path without the slashes at its end, of which the root keeps one. -/
def withoutEndSlashes (p : Path) : Path :=
  match p.text.toList.reverse.dropWhile (· = '/') with
  | [] => if p.isAbsolute then ⟨"/"⟩ else p
  | cs => ⟨String.ofList cs.reverse⟩

/-- What stands between the slashes, the slash at the start of an absolute path aside. -/
def segments (p : Path) : List String :=
  let all := (splitSlash p.text.toList).map String.ofList
  if p.isAbsolute then all.tail else all

/-- The component that a segment stands for; empty segments and dots stand for none. -/
def component? (segment : String) : Option Component :=
  if segment = "" || segment = "." then none
  else if segment = ".." then some .up
  else some (.name segment)

/-- The components of a path: repeated slashes and dots past the start do not count. -/
def components (p : Path) : List Component :=
  if p.isAbsolute then .root :: p.segments.filterMap component?
  else if p.segments.head? = some "." then .here :: p.segments.tail.filterMap component?
  else p.segments.filterMap component?

/-- The order of paths: component by component, names by their characters. -/
def le (p q : Path) : Bool := (compare p.components q.components).isLE

def join (base : Path) (name : String) : Path :=
  if Path.isAbsolute ⟨name⟩ || base.text = "" then ⟨name⟩
  else if base.endsWithSlash then ⟨base.text ++ name⟩
  else ⟨base.text ++ "/" ++ name⟩

def joinAll (base : Path) (names : List String) : Path := base.join ("/".intercalate names)

/-- The last segment of those in `before` and itself does not count. -/
def isMute (absolute : Bool) (segment : String) (before : List String) : Bool :=
  segment = "" || segment = "." && (absolute || !before.isEmpty)

/-- Segments, latest first, from the latest one that counts. -/
def trim (absolute : Bool) : List String → List String
  | [] => []
  | s :: before => if isMute absolute s before then trim absolute before else s :: before

/-- For each segment that counts, latest first, what stands before it. -/
def enclosing (absolute : Bool) : List String → List (List String)
  | [] => []
  | s :: before =>
    if isMute absolute s before then enclosing absolute before
    else trim absolute before :: enclosing absolute before

/-- The directories above, nearest first; a relative path ends with the empty path. -/
def parents (p : Path) : List Path :=
  (enclosing p.isAbsolute p.segments.reverse).map fun segments =>
    ⟨(if p.isAbsolute then "/" else "") ++ "/".intercalate segments.reverse⟩

def parent? (p : Path) : Option Path := p.parents.head?

def ancestors (p : Path) : List Path := p :: p.parents

def fileName? (p : Path) : Option String :=
  match p.components.getLast? with
  | some (.name s) => some s
  | _ => none

end Path

/-- The file name ends with a dot and the given extension, and something stands before them. -/
def hasExtension (extension fileName : String) : Bool :=
  match fileName.toList.reverse.dropWhile (· ≠ '.') with
  | [] | [_] => false
  | _ => fileName.toList.reverse.takeWhile (· ≠ '.') = extension.toList.reverse

end TwinClasses
