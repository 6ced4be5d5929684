import TwinClasses.Disk.Path

set_option autoImplicit false

/-! Files and directories. Operations that fail half-way return the state that they leave behind,
since what was done before the failure stays done. -/

namespace TwinClasses

/-- The names from the working directory down to an entry. Outside of it, a location starts with
`..` for each directory up, or with `/`. -/
abbrev Location := List String

namespace Location

/-- The working directory, one above it, or the root. -/
def isFixed (l : Location) : Bool := l = ["/"] || l.all (· = "..")

/-- The directory above; the root is above itself. -/
def above (l : Location) : Location :=
  if l = ["/"] then l else if l.all (· = "..") then l ++ [".."] else l.dropLast

/-- Where a segment of a path leads to from a directory. -/
def next (l : Location) (segment : String) : Location :=
  if segment = "" || segment = "." then l
  else if segment = ".." then l.above
  else l ++ [segment]

def start (p : Path) : Location := if p.isAbsolute then ["/"] else []

/-- The names from a directory down to an entry below it. -/
def below? (l directory : Location) : Option (List String) :=
  match l.drop directory.length with
  | [] | "/" :: _ | ".." :: _ => none
  | names => if directory.isPrefixOf l then some names else none

def path (l : Location) : Path :=
  match l with
  | "/" :: names => ⟨"/" ++ "/".intercalate names⟩
  | names => ⟨"/".intercalate names⟩

end Location

inductive Entry where
  | directory
  | text (contents : String)
  /-- A file whose bytes are not text; which bytes they are never matters. -/
  | binary
  deriving DecidableEq, Repr

inductive FileFault where
  | notFound
  | isDirectory
  | notDirectory
  | alreadyExists
  | notText
  deriving DecidableEq, Repr

structure FileSystem where
  entries : List (Location × Entry)

namespace FileSystem

/-- The working directory, those above it and the root are always there. -/
def get? (disk : FileSystem) (l : Location) : Option Entry :=
  if l.isFixed then some .directory else disk.entries.lookup l

def set (disk : FileSystem) (l : Location) (e : Entry) : FileSystem :=
  ⟨(l, e) :: disk.entries.filter (·.1 ≠ l)⟩

/-- One segment of a path further from a location, which must be a directory. -/
def step (disk : FileSystem) (l : Location) (segment : String) : Except FileFault Location :=
  match disk.get? l with
  | none => .error .notFound
  | some .directory => .ok (l.next segment)
  | some _ => .error .notDirectory

/-- Where a path leads. All but its end must be directories; there need be nothing at its end. -/
def locate (disk : FileSystem) (p : Path) : Except FileFault Location :=
  if p.text = "" then .error .notFound
  else p.segments.foldlM disk.step (.start p)

def find (disk : FileSystem) (p : Path) : Except FileFault Entry := do
  match disk.get? (← disk.locate p) with
  | some e => return e
  | none => throw .notFound

def isDirectory (disk : FileSystem) (p : Path) : Bool :=
  match disk.find p with
  | .ok .directory => true
  | _ => false

def isFile (disk : FileSystem) (p : Path) : Bool :=
  match disk.find p with
  | .ok .directory | .error _ => false
  | .ok _ => true

def readText (disk : FileSystem) (p : Path) : Except FileFault String := do
  match ← disk.find p with
  | .directory => throw .isDirectory
  | .binary => throw .notText
  | .text contents => return contents

/-- Where a file may be written. A path that ends with a slash is never that of a file. -/
def target (disk : FileSystem) (p : Path) : Except FileFault Location := do
  if p.endsWithSlash then
    let _ ← disk.locate p.withoutEndSlashes
    throw .isDirectory
  else
    let l ← disk.locate p
    if disk.get? l = some .directory then throw .isDirectory else return l

def writeText (disk : FileSystem) (p : Path) (contents : String) : Except FileFault FileSystem :=
  (disk.target p).map fun l => disk.set l (.text contents)

/-- The file system with an empty directory where nothing was. -/
def makeDirectory (disk : FileSystem) (p : Path) : Except FileFault FileSystem := do
  let l ← disk.locate p
  match disk.get? l with
  | some _ => throw .alreadyExists
  | none => return disk.set l .directory

/-- The outcome of making a directory, given those above it, nearest first. A directory that is
there already will do. -/
def makeDirectoryBelow (disk : FileSystem) (p : Path) :
    List Path → Except FileFault Unit × FileSystem
  | [] => attempt disk
  | parent :: parents =>
    match disk.makeDirectory p with
    | .error .notFound =>
      if parent.text = "" then attempt disk
      else
        match disk.makeDirectoryBelow parent parents with
        | (.ok (), disk) => attempt disk
        | failed => failed
    | _ => attempt disk
where
  attempt (disk : FileSystem) : Except FileFault Unit × FileSystem :=
    match disk.makeDirectory p with
    | .ok disk => (.ok (), disk)
    | .error fault => (if disk.isDirectory p then .ok () else .error fault, disk)

/-- Makes a directory and those above it as far as they are missing. -/
def makeDirectories (disk : FileSystem) (p : Path) : Except FileFault Unit × FileSystem :=
  if p.text = "" then (.ok (), disk) else disk.makeDirectoryBelow p p.parents

/-- The files below a directory, by their names from it down. No directory of a name in `skipped`
is entered. -/
def filesBelow (disk : FileSystem) (skipped : List String) (directory : Location) :
    List (List String) :=
  disk.entries.filterMap fun (l, e) =>
    if e = .directory then none
    else (l.below? directory).filter fun names => names.dropLast.all (· ∉ skipped)

/-- The files that were not there before or had other contents. -/
def changedFiles (before after : FileSystem) : List (Location × String) :=
  after.entries.filterMap fun (l, e) =>
    match e with
    | .text contents => if before.get? l = some e then none else some (l, contents)
    | _ => none

theorem lookup_filter_ne (entries : List (Location × Entry)) (l l' : Location) (h : l' ≠ l) :
    (entries.filter (·.1 ≠ l)).lookup l' = entries.lookup l' := by
  induction entries with
  | nil => rfl
  | cons x xs ih =>
    obtain ⟨k, e⟩ := x
    by_cases hk : k = l
    · have : (l' == k) = false := by simp [hk, h]
      rw [List.filter_cons_of_neg (by simp [hk]), ih, List.lookup_cons, this]
    · rw [List.filter_cons_of_pos (by simp [hk]), List.lookup_cons, List.lookup_cons, ih]

theorem get?_set (disk : FileSystem) (l l' : Location) (e : Entry) :
    (disk.set l e).get? l'
      = if l'.isFixed then some .directory else if l' = l then some e else disk.get? l' := by
  by_cases hf : l'.isFixed
  · simp [get?, hf]
  · by_cases hl : l' = l
    · subst hl
      simp [get?, set, hf]
    · have : (l' == l) = false := by simp [hl]
      simp only [get?, set, hf, hl, List.lookup_cons, this]
      simpa using lookup_filter_ne disk.entries l l' hl

end FileSystem

end TwinClasses
