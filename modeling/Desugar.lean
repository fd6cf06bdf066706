import Desugar.Command.Arguments
import Desugar.Command.Run
import Desugar.Compiler
import Desugar.Diagnostic
import Desugar.Element
import Desugar.Fault
import Desugar.Import
import Desugar.Json
import Desugar.Literal
import Desugar.Main
import Desugar.Mapping
import Desugar.Marker
import Desugar.Node
import Desugar.Node.Parse
import Desugar.Options
import Desugar.Output
import Desugar.Output.Emit
import Desugar.Pass
import Desugar.Path
import Desugar.Pattern
import Desugar.Pattern.Automaton
import Desugar.Pattern.Bytes
import Desugar.Pattern.Regex
import Desugar.Pattern.Syntax
import Desugar.Position
import Desugar.Proofs.Accounting
import Desugar.Proofs.Agreement
import Desugar.Proofs.Anchors
import Desugar.Proofs.Atoms
import Desugar.Proofs.Bindings
import Desugar.Proofs.Bracketing
import Desugar.Proofs.Building
import Desugar.Proofs.Carrying
import Desugar.Proofs.Chains
import Desugar.Proofs.Clauses
import Desugar.Proofs.Comparison
import Desugar.Proofs.Compilation
import Desugar.Proofs.Coverage
import Desugar.Proofs.Cursors
import Desugar.Proofs.Declarations
import Desugar.Proofs.Decoding
import Desugar.Proofs.Elements
import Desugar.Proofs.Emission
import Desugar.Proofs.Extent
import Desugar.Proofs.FastPath
import Desugar.Proofs.Forgetting
import Desugar.Proofs.Fragments
import Desugar.Proofs.Gaps
import Desugar.Proofs.Grammar
import Desugar.Proofs.Growth
import Desugar.Proofs.Heads
import Desugar.Proofs.Imports
import Desugar.Proofs.Independence
import Desugar.Proofs.Inputs
import Desugar.Proofs.Junctions
import Desugar.Proofs.Layout
import Desugar.Proofs.Lines
import Desugar.Proofs.Locality
import Desugar.Proofs.Lowering
import Desugar.Proofs.Names
import Desugar.Proofs.Nesting
import Desugar.Proofs.Overwriting
import Desugar.Proofs.PassSets
import Desugar.Proofs.Phrases
import Desugar.Proofs.Pieces
import Desugar.Proofs.Punctuation
import Desugar.Proofs.Reading
import Desugar.Proofs.Rebinding
import Desugar.Proofs.Rebuilding
import Desugar.Proofs.Recompilation
import Desugar.Proofs.Rejections
import Desugar.Proofs.Remembering
import Desugar.Proofs.Rendering
import Desugar.Proofs.Rescanning
import Desugar.Proofs.Slice
import Desugar.Proofs.Stops
import Desugar.Proofs.Stretches
import Desugar.Proofs.Structs
import Desugar.Proofs.Survival
import Desugar.Proofs.Templates
import Desugar.Proofs.Tiling
import Desugar.Proofs.Traversal
import Desugar.Proofs.Unmarked
import Desugar.Proofs.Warnings
import Desugar.Proofs.Writing
import Desugar.SourceKind
import Desugar.Text
import Desugar.Token
import Desugar.Token.Scan
import Desugar.Toml
import Desugar.Tree
import Desugar.Unicode.Alphabetic
import Desugar.Unicode.Class
import Desugar.Unicode.Decimal
import Desugar.Unicode.Folding
import Desugar.Unicode.Mark
import Desugar.Unicode.Numeric
import Desugar.Unicode.Ranges
import Desugar.Value
import Desugar.Warning
