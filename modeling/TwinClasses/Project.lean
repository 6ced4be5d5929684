import TwinClasses.Glob.Matching
import TwinClasses.Project.Configuration
import TwinClasses.RunError
import TwinClasses.Syntax.SourceFile

set_option autoImplicit false

/-! Projects: the nearest configuration file, and the source files that it names. -/

namespace TwinClasses

structure Project where
  configurationFile : Path
  /-- In the order of paths, each once. -/
  rootFiles : List Path
  deriving DecidableEq, Repr

namespace Project

def configurationName : String := "tsconfig.json"

/-- Files of libraries are not sources. -/
def libraryDirectories : List String := ["node_modules"]

/-- The configuration file in a directory or the nearest one above it. -/
def findConfiguration? (disk : FileSystem) (start : Path) : Option Path :=
  (start.ancestors.map (·.join configurationName)).find? disk.isFile

/-- The text without any `./` in front. -/
def withoutHere : List Char → List Char
  | '.' :: '/' :: cs => withoutHere cs
  | cs => cs

/-- The pattern without `./` in front and slashes at the end. Without wildcards, a directory stands
for all that is below it. -/
def effectivePattern (disk : FileSystem) (base : Path) (pattern : String) : String :=
  let cs := ((withoutHere pattern.toList).reverse.dropWhile (· = '/')).reverse
  let pattern := String.ofList cs
  if cs.all (fun c => c ≠ '*' && c ≠ '?') && disk.isDirectory (base.join pattern) then
    pattern ++ "/**/*"
  else pattern

def readPatterns (disk : FileSystem) (configurationFile base : Path) :
    List String → Except RunError (List Glob)
  | [] => .ok []
  | pattern :: patterns => do
    let normalized := effectivePattern disk base pattern
    let glob ← (Glob.ofText normalized).mapError
      (.invalidPattern configurationFile pattern normalized)
    return glob :: (← readPatterns disk configurationFile base patterns)

/-- The files below a directory that a configuration may pick from, by their names from it down:
those with the extension of sources, outside of skipped directories. -/
def candidates (disk : FileSystem) (base : Path) : List (List String) :=
  match disk.locate base with
  | .error _ => []
  | .ok directory =>
    if base.fileName?.any (· ∈ libraryDirectories) then []
    else (disk.filesBelow libraryDirectories directory).filter fun names =>
      names.getLast?.any (hasExtension "ts")

/-- A sorted list with each path once; of those that only differ in their text, the first one stays.
-/
def dropRepeated : List Path → List Path
  | [] => []
  | p :: ps =>
    match dropRepeated ps with
    | [] => [p]
    | q :: qs => if p.components = q.components then p :: qs else p :: q :: qs

/-- The files that a configuration names: the listed ones, and those that match what is included and
nothing that is excluded. -/
def listRootFiles (disk : FileSystem) (config : Configuration) (configurationFile base : Path) :
    Except RunError (List Path) := do
  let included ← readPatterns disk configurationFile base config.patterns
  let excluded ← readPatterns disk configurationFile base config.excluded
  let listed := (config.files.getD []).map fun file =>
    base.join (String.ofList (withoutHere file.toList))
  let matched := (candidates disk base).filter fun names =>
    let path := "/".intercalate names
    included.any (·.isMatch path) && !excluded.any (·.isMatch path)
  return dropRepeated ((listed ++ matched.map base.joinAll).mergeSort Path.le)

/-- The directory that the entries of a configuration file are relative to. -/
def baseOf (configurationFile : Path) : Path :=
  match configurationFile.parent? with
  | some parent => if parent.text = "" then ⟨"."⟩ else parent
  | none => ⟨"."⟩

def ofDirectory (disk : FileSystem) (start : Path) : Except RunError Project := do
  match findConfiguration? disk start with
  | none => throw (.configurationNotFound start)
  | some file =>
    let text ← (disk.readText file).mapError (.configurationUnreadable file)
    let config ← (Configuration.ofText text).mapError (.invalidConfiguration file)
    return ⟨file, ← listRootFiles disk config file (baseOf file)⟩

/-- The first source file whose path ends so. -/
def findFile (project : Project) (ending : String) : Except RunError Path :=
  match project.rootFiles.find? fun p => ending.toList.isSuffixOf p.text.toList with
  | some p => .ok p
  | none => .error (.sourceNotFound ending)

def parseFile (project : Project) (disk : FileSystem) (ending : String) :
    Except RunError SourceFile := do
  let path ← project.findFile ending
  let text ← (disk.readText path).mapError (.sourceUnreadable path)
  (SourceFile.ofSource path.text text).mapError .syntaxFault

end Project

end TwinClasses
