import TwinClasses.CommandLine
import TwinClasses.Disk.FileSystem
import TwinClasses.Disk.Path
import TwinClasses.Expansion
import TwinClasses.Expansion.Error
import TwinClasses.Expansion.Header
import TwinClasses.Expansion.Member
import TwinClasses.Expansion.Naming
import TwinClasses.Expansion.SyncForm
import TwinClasses.Expansion.TemplateMethod
import TwinClasses.Expansion.TypeTable
import TwinClasses.Expansion.Wrapper
import TwinClasses.Flavor
import TwinClasses.Glob.Matching
import TwinClasses.Glob.Pattern
import TwinClasses.Json.Double
import TwinClasses.Json.Noise
import TwinClasses.Json.Reading
import TwinClasses.Json.Token
import TwinClasses.Main
import TwinClasses.Project
import TwinClasses.Project.Configuration
import TwinClasses.Run
import TwinClasses.RunError
import TwinClasses.Settings
import TwinClasses.Syntax.Cursor
import TwinClasses.Syntax.Delimiter
import TwinClasses.Syntax.Equality
import TwinClasses.Syntax.Extent
import TwinClasses.Syntax.Fault
import TwinClasses.Syntax.Leading
import TwinClasses.Syntax.Node
import TwinClasses.Syntax.Query
import TwinClasses.Syntax.Reader
import TwinClasses.Syntax.Reading
import TwinClasses.Syntax.SourceFile
import TwinClasses.Syntax.Tokens
import TwinClasses.Syntax.Tree
import TwinClasses.Text.Blank
import TwinClasses.Text.Bytes
import TwinClasses.Text.Position
import TwinClasses.Token
import TwinClasses.Token.Kind
import TwinClasses.Token.Lexer
import TwinClasses.Token.Literal
import TwinClasses.Token.Scan
import TwinClasses.Proofs.RoundTrip.Filling
import TwinClasses.Proofs.RoundTrip.Yields
import TwinClasses.Proofs.Traversal
import TwinClasses.Proofs.RoundTrip.Fronts
import TwinClasses.Proofs.RoundTrip.Reads
import TwinClasses.Proofs.RoundTrip.Sequences
import TwinClasses.Proofs.RoundTrip.Types
import TwinClasses.Proofs.RoundTrip.Members
import TwinClasses.Proofs.RoundTrip.Lossless
import TwinClasses.Proofs.Conversion.Edits
import TwinClasses.Proofs.Conversion.Erasure
import TwinClasses.Proofs.Conversion.Script
import TwinClasses.Proofs.Conversion.Carrying
import TwinClasses.Proofs.Conversion.Settled
import TwinClasses.Proofs.Conversion.Written
import TwinClasses.Proofs.Conversion.Idempotence
import TwinClasses.Proofs.Expansion.Synchronous
import TwinClasses.Proofs.Expansion.Wrapping
import TwinClasses.Proofs.Expansion.Templates
import TwinClasses.Proofs.Expansion.Twins
import TwinClasses.Proofs.Expansion.Growth
import TwinClasses.Proofs.Expansion.Written
import TwinClasses.Proofs.Lexing.Skipping
import TwinClasses.Proofs.Lexing.ReadBack
import TwinClasses.Proofs.Lexing.Boundary
import TwinClasses.Proofs.Lexing.Spacing
import TwinClasses.Proofs.Conversion.Printing
import TwinClasses.Proofs.Framing.Extends
import TwinClasses.Proofs.Framing.Types
import TwinClasses.Proofs.Framing.Members
import TwinClasses.Proofs.Framing.Classes
import TwinClasses.Proofs.Expansion.Rereading
import TwinClasses.Proofs.Lexing.Tiling
import TwinClasses.Proofs.Lexing.Nesting
import TwinClasses.Proofs.Classless.Sources
import TwinClasses.Proofs.Rerun.Stability
import TwinClasses.Proofs.Running.Outcomes
import TwinClasses.Proofs.Expansion.Splitting
import TwinClasses.Proofs.Expansion.Acceptance
import TwinClasses.Proofs.Faults.Places
import TwinClasses.Proofs.Brackets
import TwinClasses.Proofs.Classless.Bodies
import TwinClasses.Proofs.Framing.Properties
import TwinClasses.Proofs.Framing.ClassWords
import TwinClasses.Proofs.Lexing.Slashes
import TwinClasses.Proofs.Framing.Angles
import TwinClasses.Proofs.Framing.Arguments
import TwinClasses.Proofs.Framing.AngleScans
import TwinClasses.Proofs.Framing.Defaults
import TwinClasses.Proofs.Conversion.LineBreaks
import TwinClasses.Proofs.Expansion.Headers
import TwinClasses.Proofs.Expansion.Visiting
import TwinClasses.Proofs.Names.MemberNames
import TwinClasses.Proofs.Framing.Operands
import TwinClasses.Proofs.Selection.Directories
import TwinClasses.Proofs.Noise.Stripping
import TwinClasses.Proofs.FirstTokens
