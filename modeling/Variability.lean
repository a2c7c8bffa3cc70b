import Variability.BuildScript
import Variability.Command
import Variability.Composer
import Variability.Condition
import Variability.Config
import Variability.Diagram.Cache
import Variability.Diagram.Handle
import Variability.Diagram.Manager
import Variability.Diagram.Pairing
import Variability.Diagram.Table
import Variability.Dict
import Variability.Digest
import Variability.DotConfig
import Variability.Expression
import Variability.Expression.Evaluation
import Variability.Fault
import Variability.Feature
import Variability.Feature.Dimacs
import Variability.FileConditions
import Variability.FileTree
import Variability.FileTree.Copy
import Variability.FileTree.Edit
import Variability.Formula
import Variability.Formula.Diagram
import Variability.Generation
import Variability.Inclusion
import Variability.Job
import Variability.JsonText.Token
import Variability.JsonText.Value
import Variability.LineConditions
import Variability.LineMap
import Variability.Location
import Variability.Log
import Variability.Macro
import Variability.Macro.Definitions
import Variability.MakeRule
import Variability.Path
import Variability.Preamble
import Variability.Preprocessor
import Variability.Preprocessor.Directive
import Variability.Presence
import Variability.Proofs.Condition.Space
import Variability.Proofs.Diagram.Allocation
import Variability.Proofs.Diagram.Canonicity
import Variability.Proofs.Diagram.Chain
import Variability.Proofs.Diagram.Connectives
import Variability.Proofs.Diagram.Evaluation
import Variability.Proofs.Diagram.Garbage
import Variability.Proofs.Diagram.IfThenElse
import Variability.Proofs.Diagram.Reuse
import Variability.Proofs.Diagram.Runs
import Variability.Proofs.Diagram.Sweep
import Variability.Scanner
import Variability.Smt.Formula
import Variability.Smt.Script
import Variability.Smt.Token
import Variability.SourceMap
import Variability.Strategy
import Variability.Text.Blank
import Variability.Text.Line
import Variability.Text.Quoted
import Variability.Text.Utf8
import Variability.Text.Word
import Variability.Token
import Variability.Token.Lexer
import Variability.Trace
import Variability.Proofs.Macro.Definitions
import Variability.Proofs.Expression.Evaluation
import Variability.Proofs.Preprocessor.Configuration
import Variability.Proofs.Preprocessor.Lifting
import Variability.Proofs.Formula.Diagram
import Variability.Proofs.Condition.Expansion
import Variability.Proofs.Condition.Coupling
import Variability.Proofs.Condition.Alike
import Variability.Proofs.Token.Position
import Variability.Proofs.Token.Lexer
import Variability.Proofs.Expression.Position
import Variability.Proofs.Expression.Coupling
import Variability.Proofs.Macro.Coupling
import Variability.Proofs.Preprocessor.Coupling
import Variability.Proofs.Preprocessor.CommandLine
import Variability.Proofs.Preprocessor.OpenMacros
import Variability.Proofs.Feature.Sanitizing
import Variability.Proofs.LineConditions.Independence
import Variability.Proofs.LineConditions.Sampling
import Variability.Proofs.Composer.Independence
import Variability.Proofs.Condition.Telling
import Variability.Proofs.Expression.Concrete
import Variability.Proofs.Macro.Values
import Variability.Proofs.Macro.Rulings
import Variability.Proofs.Expression.Literals
import Variability.Proofs.Expression.Outcome
import Variability.Proofs.Expression.Grammar
import Variability.Proofs.Expression.Integers
import Variability.Proofs.Expression.Parsing
import Variability.Proofs.Expression.Arithmetic
import Variability.Proofs.Expression.Trees
import Variability.Proofs.Expression.Typed
import Variability.Proofs.Expression.Constants
import Variability.Proofs.Expression.Unsplit
import Variability.Proofs.Expression.Extension
import Variability.Proofs.Macro.Splicing
import Variability.Proofs.Expression.Splicing
import Variability.Proofs.Expression.Inlining
import Variability.Proofs.Expression.ByValue
import Variability.Proofs.Preprocessor.Environment
import Variability.Proofs.Preprocessor.Reach
import Variability.Proofs.Preprocessor.Tracking
import Variability.Proofs.Diagram.Recomputing
import Variability.Proofs.Diagram.Transparency
import Variability.Proofs.Diagram.Operations
import Variability.Proofs.Formula.Equivalence
import Variability.Proofs.FileTree.Writing
import Variability.Proofs.Path.Components
import Variability.Proofs.Text.FileLines
import Variability.Proofs.Inclusion.ComposedPath
import Variability.Proofs.Generation.LineByLine
import Variability.Proofs.Path.Locations
import Variability.Proofs.Scanner.Answers
import Variability.Proofs.Generation.Filling
import Variability.Proofs.Generation.Confinement
import Variability.Proofs.Inclusion.Variants
import Variability.Proofs.Preprocessor.Inclusions
import Variability.Proofs.Composer.Finishing
import Variability.Proofs.Composer.History
import Variability.Proofs.Dict.Ordered
import Variability.Proofs.FileTree.Laying
import Variability.Proofs.Generation.Exactness
import Variability.Proofs.Preprocessor.Beside
import Variability.Proofs.Preprocessor.ReadOnce
import Variability.Proofs.Command.Quoting
import Variability.Proofs.Path.Naming
import Variability.Proofs.Scanner.RoundTrip
import Variability.Proofs.Trace.Flags
import Variability.Proofs.Preprocessor.Builtins
import Variability.Proofs.LineConditions.Literals
import Variability.Proofs.FileTree.Directories
import Variability.Proofs.FileTree.Copying
import Variability.Proofs.Composer.SourceCopy
import Variability.Proofs.Preprocessor.Defining
import Variability.Proofs.Token.Splicing
import Variability.Proofs.Token.Lossless
import Variability.Proofs.Token.Cursor
import Variability.Proofs.Token.LineOrder
import Variability.Proofs.Preprocessor.Captures
import Variability.Proofs.Settling
import Variability.Proofs.Expression.Calls
import Variability.Proofs.Expression.Nesting
import Variability.Proofs.Preprocessor.Termination
import Variability.Proofs.Command.Reader
import Variability.Proofs.Command.Pieces
import Variability.Proofs.Command.Cursor
import Variability.Proofs.Trace.Scanning
import Variability.Proofs.Trace.Nesting
import Variability.Proofs.Smt.Scopes
import Variability.Proofs.Smt.Meaning
import Variability.Proofs.LineMap.Folding
import Variability.Proofs.LineMap.Markers
import Variability.Proofs.LineMap.Walk
import Variability.Proofs.Text.Pieces
import Variability.Proofs.Formula.NormalForm
import Variability.Proofs.Feature.KnownOnly
import Variability.Proofs.DotConfig.Options
import Variability.Proofs.DotConfig.Overlaying
import Variability.Proofs.DotConfig.Checking
import Variability.Proofs.Path.Places
import Variability.Proofs.MakeRule.Written
import Variability.Proofs.Inclusion.Sameness
import Variability.Proofs.MakeRule.Inheritance
import Variability.Proofs.Scanner.Reordering
import Variability.Proofs.Path.Resolving
import Variability.Proofs.Inclusion.ForcedPaths
import Variability.Proofs.Diagram.Cubes
import Variability.Proofs.Text.Utf8
import Variability.Proofs.BuildScript.Patching
import Variability.Proofs.Diagram.Cells
import Variability.Proofs.Feature.Naming
import Variability.Proofs.Token.Spelling
