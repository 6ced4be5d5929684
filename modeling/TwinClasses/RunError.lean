import TwinClasses.Disk.FileSystem
import TwinClasses.Glob.Pattern
import TwinClasses.Json.Token
import TwinClasses.Expansion.Error
import TwinClasses.Syntax.Fault

set_option autoImplicit false

/-! Why a run fails. -/

namespace TwinClasses

inductive RunError where
  | configurationNotFound (start : Path)
  | configurationUnreadable (file : Path) (fault : FileFault)
  | invalidConfiguration (file : Path) (fault : Json.Fault)
  /-- The pattern as it stands in the configuration, and as it was read. -/
  | invalidPattern (file : Path) (pattern normalized : String) (fault : Glob.Fault)
  | sourceNotFound (ending : String)
  | sourceUnreadable (file : Path) (fault : FileFault)
  | syntaxFault (diagnostic : Diagnostic)
  | expansion (error : ExpansionError)
  | unwritable (file : Path) (fault : FileFault)

/-- The message, without what the system says about a file or where a configuration is wrong. -/
def RunError.message : RunError → String
  | configurationNotFound start =>
    s!"tsconfig.json not found in {start.text} or any parent directory."
  | configurationUnreadable file _ => s!"Failed to read {file.text}"
  | invalidConfiguration file _ => s!"Invalid project configuration {file.text}"
  | invalidPattern file pattern normalized fault =>
    s!"Invalid pattern {pattern} in {file.text}: error parsing glob '{normalized}': " ++
      fault.message
  | sourceNotFound ending => s!"Source file {ending} not found."
  | sourceUnreadable file _ => s!"Failed to read source file {file.text}"
  | syntaxFault diagnostic => diagnostic.message
  | expansion error => error.message
  | unwritable file _ => s!"Failed to write {file.text}"

end TwinClasses
