import TwinClasses.Run

set_option autoImplicit false

/-! The command line: one argument, the root of the project, which is the working directory if it is
missing. -/

namespace TwinClasses

inductive Command where
  | generate (root : Path)
  | help
  | version
  /-- The arguments cannot be understood. -/
  | misuse
  deriving DecidableEq, Repr

namespace Command

/-- The command that arguments are, the root so far given. Nothing after `--` is an option. -/
def ofArguments (root : Option String) (options : Bool) : List String → Command
  | [] => .generate ⟨root.getD "."⟩
  | argument :: arguments =>
    match options, argument.toList with
    | true, ['-', '-'] => ofArguments root false arguments
    | true, '-' :: '-' :: name =>
      if name = "help".toList then .help
      else if name = "version".toList then .version
      else .misuse
    | true, '-' :: letter :: _ =>
      if letter = 'h' then .help else if letter = 'V' then .version else .misuse
    | _, _ => if root.isSome then .misuse else ofArguments (some argument) options arguments

end Command

/-- What a command leaves on the terminal. -/
structure Response where
  code : UInt8
  output : String := ""
  errors : String := ""
  deriving DecidableEq, Repr

namespace CommandLine

def usage (program : String) : String := s!"Usage: {program} [root]\n"

def help (program : String) : String :=
  "Generates the enumerable classes from the implementation template\n\n" ++ usage program ++
  "\nArguments:\n" ++
  "  [root]  Project root holding template/ and src/ [default: .]\n" ++
  "\nOptions:\n" ++
  "  -h, --help     Print help\n" ++
  "  -V, --version  Print version\n"

def fileFaultText : FileFault → String
  | .notFound => "No such file or directory (os error 2)"
  | .isDirectory => "Is a directory (os error 21)"
  | .notDirectory => "Not a directory (os error 20)"
  | .alreadyExists => "File exists (os error 17)"
  | .notText => "stream did not contain valid UTF-8"

def jsonFaultText : Json.Fault → String
  | .malformed => "not JSON"
  | .misshapen => "unexpected member"
  | .truncated => "the text ends too early"

def errorText (e : RunError) : String :=
  match e with
  | .configurationUnreadable _ fault | .sourceUnreadable _ fault | .unwritable _ fault =>
    e.message ++ ": " ++ fileFaultText fault
  | .invalidConfiguration _ fault => e.message ++ ": " ++ jsonFaultText fault
  | _ => e.message

/-- The response to a command, and the state that it leaves. -/
def respond (program : String) (command : Command) (disk : FileSystem) : Response × FileSystem :=
  match command with
  | .help => ({ code := 0, output := help program }, disk)
  | .version => ({ code := 0, output := program ++ " 0.1.0\n" }, disk)
  | .misuse => ({ code := 2, errors := usage program }, disk)
  | .generate root =>
    match run (.ofRoot root) disk with
    | (.ok paths, disk) =>
      ({ code := 0, output := String.join (paths.map fun p => p.text ++ "\n") }, disk)
    | (.error e, disk) => ({ code := 1, errors := "Error: " ++ errorText e ++ "\n" }, disk)

end CommandLine

end TwinClasses
