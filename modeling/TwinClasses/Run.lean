import TwinClasses.Project
import TwinClasses.Settings

set_option autoImplicit false

/-! A run: the template and both skeletons are read, both classes are generated, and only then the
outputs are written. -/

namespace TwinClasses

def generateFlavor (settings : Settings) (disk : FileSystem) (project : Project)
    (templates : TemplateClasses) (flavor : Flavor) : Except RunError Output := do
  let skeleton ← project.parseFile disk (settings.skeletonFile flavor)
  let expansion : Expansion := ⟨flavor, templates, settings.conventions⟩
  let expanded ← (expansion.run skeleton).mapError .expansion
  return expanded.output settings

def generate (settings : Settings) (disk : FileSystem) : Except RunError (List Output) := do
  let project ← Project.ofDirectory disk settings.templateDirectory
  let template ← project.parseFile disk settings.templateFile
  let templates ← (TemplateClasses.ofFile template).mapError .expansion
  let synchronous ← generateFlavor settings disk project templates .synchronous
  let asynchronous ← generateFlavor settings disk project templates .asynchronous
  return [synchronous, asynchronous]

def Output.write (output : Output) (disk : FileSystem) : Except RunError Unit × FileSystem :=
  let made := match output.path.parent? with
    | some parent => disk.makeDirectories parent
    | none => (.ok (), disk)
  match made with
  | (.error fault, disk) => (.error (.unwritable output.path fault), disk)
  | (.ok (), disk) =>
    match disk.writeText output.path output.contents with
    | .ok disk => (.ok (), disk)
    | .error fault => (.error (.unwritable output.path fault), disk)

/-- Writes files, up to the first that cannot be written. -/
def writeOutputs : List Output → FileSystem → Except RunError Unit × FileSystem
  | [], disk => (.ok (), disk)
  | output :: outputs, disk =>
    match output.write disk with
    | (.ok (), disk) => writeOutputs outputs disk
    | failed => failed

/-- The paths that a run writes or why it fails, and the state that it leaves. -/
def run (settings : Settings) (disk : FileSystem) : Except RunError (List Path) × FileSystem :=
  match generate settings disk with
  | .error e => (.error e, disk)
  | .ok outputs =>
    match writeOutputs outputs disk with
    | (.ok (), disk) => (.ok (outputs.map (·.path)), disk)
    | (.error e, disk) => (.error e, disk)

/-- Before the outputs are written nothing is touched. -/
theorem run_of_generate_error {settings : Settings} {disk : FileSystem} {e : RunError}
    (h : generate settings disk = .error e) : run settings disk = (.error e, disk) := by
  simp [run, h]

end TwinClasses
