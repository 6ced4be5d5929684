import TwinClasses.Disk.Path
import TwinClasses.Expansion

set_option autoImplicit false

/-! What a run depends on, and the form of its outputs. -/

namespace TwinClasses

def standardBanner : String :=
  "//***********************************//\n" ++
  "//    GENERATED FILE. DO NOT EDIT!   //\n" ++
  "//***********************************//\n\n"

structure Settings where
  /-- Where the search for the project starts. -/
  templateDirectory : Path
  outputDirectory : Path
  /-- How the path of the template file ends; the same goes for the skeletons. -/
  templateFile : String := "implementationTemplate.ts"
  synchronousFile : String := "enumerable.ts"
  asynchronousFile : String := "asyncEnumerable.ts"
  banner : String := standardBanner
  conventions : Conventions := {}
  deriving DecidableEq, Repr

namespace Settings

def ofRoot (root : Path) : Settings :=
  { templateDirectory := root.join "template", outputDirectory := root.join "src" }

def skeletonFile (settings : Settings) : Flavor → String
  | .synchronous => settings.synchronousFile
  | .asynchronous => settings.asynchronousFile

end Settings

structure Output where
  path : Path
  contents : String
  deriving DecidableEq, Repr

/-- The output for an expanded skeleton: its text below the banner, under its own name. -/
def SourceFile.output (settings : Settings) (file : SourceFile) : Output :=
  ⟨settings.outputDirectory.join file.baseName, settings.banner ++ file.source⟩

end TwinClasses
