import FrozenScript.Artifact.ArrayText
import FrozenScript.Artifact.Build
import FrozenScript.Artifact.FileTree
import FrozenScript.Artifact.Label
import FrozenScript.Artifact.Settings
import FrozenScript.Code.Basic
import FrozenScript.Code.Equality
import FrozenScript.Code.Generator
import FrozenScript.CommandLine
import FrozenScript.Compile
import FrozenScript.Image.Basic
import FrozenScript.Image.Decode
import FrozenScript.Image.Encode
import FrozenScript.Machine.Builtin
import FrozenScript.Machine.Fault
import FrozenScript.Machine.Operators
import FrozenScript.Machine.Run
import FrozenScript.Machine.State
import FrozenScript.Machine.Step
import FrozenScript.Machine.Value
import FrozenScript.Main
import FrozenScript.Proofs.Code.Draft
import FrozenScript.Proofs.Code.Functions
import FrozenScript.Proofs.Code.Height
import FrozenScript.Proofs.Code.Layout
import FrozenScript.Proofs.Code.WellFormed
import FrozenScript.Proofs.Image.Canonical
import FrozenScript.Proofs.Image.Reader
import FrozenScript.Proofs.Machine.Effect
import FrozenScript.Proofs.Machine.Generated
import FrozenScript.Proofs.Machine.Session
import FrozenScript.Proofs.Machine.Sound
import FrozenScript.Proofs.Machine.Step
import FrozenScript.Proofs.Meaning.Activation
import FrozenScript.Proofs.Meaning.Carries
import FrozenScript.Proofs.Meaning.Evaluation
import FrozenScript.Proofs.Meaning.Expression
import FrozenScript.Proofs.Meaning.Instruction
import FrozenScript.Proofs.Meaning.Program
import FrozenScript.Proofs.Meaning.Statement
import FrozenScript.Proofs.Syntax.Complete.Expression
import FrozenScript.Proofs.Syntax.Complete.Statement
import FrozenScript.Proofs.Syntax.Grammar
import FrozenScript.Proofs.Syntax.Parse
import FrozenScript.Proofs.Syntax.Sound
import FrozenScript.Proofs.Syntax.Yields
import FrozenScript.Proofs.Utf8
import FrozenScript.Sink
import FrozenScript.Syntax.Basic
import FrozenScript.Syntax.Parser
import FrozenScript.Syntax.Parser.Expression
import FrozenScript.Syntax.Parser.Statement
import FrozenScript.Syntax.Scoping
import FrozenScript.Table
import FrozenScript.Text.Blank
import FrozenScript.Text.Decimal
import FrozenScript.Text.Position
import FrozenScript.Text.Quoted
import FrozenScript.Text.Span
import FrozenScript.Text.Utf8
import FrozenScript.Token.Basic
import FrozenScript.Token.Lexer
import FrozenScript.Proofs.Artifact.Buffer
import FrozenScript.Proofs.Artifact.FileTree
import FrozenScript.Proofs.Artifact.Build
import FrozenScript.Proofs.Artifact.ArrayText
import FrozenScript.Proofs.Artifact.RoundTrip
import FrozenScript.Proofs.Token.Round
import FrozenScript.Proofs.Token.Layout
import FrozenScript.Proofs.Machine.Modules
import FrozenScript.Proofs.Machine.ModuleCache
import FrozenScript.Proofs.Machine.Variables
import FrozenScript.Proofs.Machine.Imports
import FrozenScript.Proofs.Token.Coverage
import FrozenScript.Proofs.Syntax.Nesting
import FrozenScript.Proofs.Machine.Recursion
import FrozenScript.Proofs.Machine.Depth
import FrozenScript.Proofs.Machine.Surroundings
import FrozenScript.Proofs.Machine.Output
import FrozenScript.Proofs.Machine.Linking
import FrozenScript.Proofs.Boundary
import FrozenScript.Proofs.Token.Bytes
import FrozenScript.Proofs.Syntax.Spans
import FrozenScript.Proofs.Token.Scanning
import FrozenScript.Proofs.Token.Rendering
import FrozenScript.Proofs.Token.LineEndings
import FrozenScript.Proofs.Code.Lines
import FrozenScript.Proofs.Syntax.Scoping
import FrozenScript.Proofs.Machine.Arithmetic
import FrozenScript.Proofs.Token.Positions
import FrozenScript.Proofs.Code.Assertions
import FrozenScript.Proofs.Image.Cut
import FrozenScript.Proofs.Token.Literal
import FrozenScript.Proofs.Syntax.Located
import FrozenScript.Proofs.Syntax.FirstError
import FrozenScript.Proofs.Artifact.Rows
import FrozenScript.Proofs.Code.Relabel
import FrozenScript.Proofs.Token.Number
import FrozenScript.Proofs.Token.BlankLines
import FrozenScript.Proofs.Machine.Comparison
import FrozenScript.Proofs.Code.Pools
import FrozenScript.Proofs.Syntax.Descent.Termination
