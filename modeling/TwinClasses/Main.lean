import TwinClasses.CommandLine

set_option autoImplicit false

/-! The program. It looks at the part of the disk that a run depends on, computes the response, and
carries out what was written. -/

namespace TwinClasses.Main

def entryOfBytes (bytes : ByteArray) : Entry :=
  match String.fromUTF8? bytes with
  | some contents => .text contents
  | none => .binary

/-- The entries that some children of a directory are and have below them; links are not followed.
-/
partial def entriesBelow (directory : Location) (children : Array IO.FS.DirEntry) :
    IO (List (Location × Entry)) := do
  let mut entries : List (Location × Entry) := []
  for child in children do
    let l := directory ++ [child.fileName]
    match (← child.path.symlinkMetadata).type with
    | .dir =>
      entries := (l, .directory) :: (← entriesBelow l (← child.path.readDir)) ++ entries
    | .file => entries := (l, entryOfBytes (← IO.FS.readBinFile child.path)) :: entries
    | _ => pure ()
  return entries

/-- Where a path leads if what it passes through is there. -/
def locationOf (p : Path) : Location := p.segments.foldl Location.next (.start p)

def entryAt? (p : Path) : IO (Option Entry) := do
  let place := (← IO.currentDir) / p.text
  if ← place.isDir then return some .directory
  else if ← place.pathExists then return some (entryOfBytes (← IO.FS.readBinFile place))
  else return none

def tree (directory : Path) : IO (List (Location × Entry)) := do
  let place := (← IO.currentDir) / directory.text
  if ← place.isDir then entriesBelow (locationOf directory) (← place.readDir) else return []

/-- The part of the disk that a run depends on: what lies on the way to its directories, all below
the directory of the configuration, and the present outputs. -/
def snapshot (settings : Settings) : IO FileSystem := do
  let mut entries ← tree settings.outputDirectory
  for p in settings.templateDirectory.ancestors do
    match ← entryAt? (p.join Project.configurationName) with
    | some .directory | none => pure ()
    | some _ =>
      entries := entries ++ (← tree p)
      break
  for p in settings.templateDirectory.ancestors ++ settings.outputDirectory.ancestors do
    if let some e ← entryAt? p then
      entries := entries ++ [(locationOf p, e)]
  return ⟨entries⟩

def writeOut (p : Path) (contents : String) : IO Unit := do
  if let some parent := p.parent? then
    unless parent.text = "" do IO.FS.createDirAll parent.text
  IO.FS.writeFile p.text contents

end TwinClasses.Main

open TwinClasses in
def main (arguments : List String) : IO UInt32 := do
  let program := (← IO.appPath).fileStem.getD ""
  let command := Command.ofArguments none true arguments
  let disk ← match command with
    | .generate root => Main.snapshot (.ofRoot root)
    | _ => pure ⟨[]⟩
  let (response, after) := CommandLine.respond program command disk
  for (l, contents) in disk.changedFiles after do
    Main.writeOut l.path contents
  IO.print response.output
  IO.eprint response.errors
  return response.code.toUInt32
