import FrontEnd.Code
import FrontEnd.CommandLine.Request
import FrontEnd.CommandLine.Run
import FrontEnd.Compilation
import FrontEnd.Diagnostic
import FrontEnd.Grammar.Basic
import FrontEnd.Grammar.Builtin
import FrontEnd.Grammar.LeftFactoring
import FrontEnd.Grammar.LeftRecursion
import FrontEnd.Grammar.Prepared
import FrontEnd.Grammar.Rule
import FrontEnd.Grammar.Sets
import FrontEnd.Grammar.Sharing
import FrontEnd.Grammar.Table
import FrontEnd.Grammar.Text
import FrontEnd.Json
import FrontEnd.Lowering.Expr
import FrontEnd.Lowering.Fault
import FrontEnd.Lowering.Statement
import FrontEnd.Main
import FrontEnd.Parse.Arena
import FrontEnd.Parse.Fault
import FrontEnd.Parse.Outcome
import FrontEnd.Parse.PartialTree
import FrontEnd.Parse.Stack
import FrontEnd.Parse.Step
import FrontEnd.Parse.Termination
import FrontEnd.Program.Basic
import FrontEnd.Program.Literal
import FrontEnd.Program.OfTree
import FrontEnd.Proofs.Arrays
import FrontEnd.Proofs.Code.Machine
import FrontEnd.Proofs.Compilation
import FrontEnd.Proofs.Declarations
import FrontEnd.Proofs.Diagnostics
import FrontEnd.Proofs.Grammar.Builtin
import FrontEnd.Proofs.Grammar.Closure
import FrontEnd.Proofs.Grammar.Conflicts
import FrontEnd.Proofs.Grammar.Derivation
import FrontEnd.Proofs.Grammar.First
import FrontEnd.Proofs.Grammar.FirstMeaning
import FrontEnd.Proofs.Grammar.Follow
import FrontEnd.Proofs.Grammar.FollowMeaning
import FrontEnd.Proofs.Grammar.Language
import FrontEnd.Proofs.Grammar.LeftCorner
import FrontEnd.Proofs.Grammar.LeftFactoring
import FrontEnd.Proofs.Grammar.LeftRecursion
import FrontEnd.Proofs.Grammar.Leftmost
import FrontEnd.Proofs.Grammar.Merging
import FrontEnd.Proofs.Grammar.Normalization
import FrontEnd.Proofs.Grammar.Prediction
import FrontEnd.Proofs.Grammar.Spelling
import FrontEnd.Proofs.Grammar.Text
import FrontEnd.Proofs.Grammar.Unambiguous
import FrontEnd.Proofs.Grammar.Valuation
import FrontEnd.Proofs.Json
import FrontEnd.Proofs.Listing
import FrontEnd.Proofs.Lowering.Declarations
import FrontEnd.Proofs.Lowering.Discipline
import FrontEnd.Proofs.Lowering.Expr
import FrontEnd.Proofs.Lowering.Growth
import FrontEnd.Proofs.Lowering.Implements
import FrontEnd.Proofs.Lowering.Lines
import FrontEnd.Proofs.Lowering.Mismatches
import FrontEnd.Proofs.Lowering.Renaming
import FrontEnd.Proofs.Lowering.Sizes
import FrontEnd.Proofs.Lowering.Statement
import FrontEnd.Proofs.Lowering.Temporaries
import FrontEnd.Proofs.Lowering.Types
import FrontEnd.Proofs.Parse.Acceptance
import FrontEnd.Proofs.Parse.Accounting
import FrontEnd.Proofs.Parse.Arena
import FrontEnd.Proofs.Parse.Assembly
import FrontEnd.Proofs.Parse.Completeness
import FrontEnd.Proofs.Parse.Cycle
import FrontEnd.Proofs.Parse.History
import FrontEnd.Proofs.Parse.Labels
import FrontEnd.Proofs.Parse.Lines
import FrontEnd.Proofs.Parse.Preorder
import FrontEnd.Proofs.Parse.Run
import FrontEnd.Proofs.Parse.Shape
import FrontEnd.Proofs.Parse.Soundness
import FrontEnd.Proofs.Parse.Stack
import FrontEnd.Proofs.Parse.ViablePrefix
import FrontEnd.Proofs.Program.Arrays
import FrontEnd.Proofs.Program.Declarations
import FrontEnd.Proofs.Program.ExprOfDerivation
import FrontEnd.Proofs.Program.Guards
import FrontEnd.Proofs.Program.Leaves
import FrontEnd.Proofs.Program.Lines
import FrontEnd.Proofs.Program.Meaning
import FrontEnd.Proofs.Program.OfDerivation
import FrontEnd.Proofs.Program.Parts
import FrontEnd.Proofs.Program.Reading
import FrontEnd.Proofs.Program.Renaming
import FrontEnd.Proofs.Program.Semantics
import FrontEnd.Proofs.Program.Texts
import FrontEnd.Proofs.Program.ToDerivation
import FrontEnd.Proofs.Program.Variables
import FrontEnd.Proofs.Renaming
import FrontEnd.Proofs.Text.Split
import FrontEnd.Proofs.Token.Boundary
import FrontEnd.Proofs.Token.Classes
import FrontEnd.Proofs.Token.Composition
import FrontEnd.Proofs.Token.Cursor
import FrontEnd.Proofs.Token.LongestMatch
import FrontEnd.Proofs.Token.Numerals
import FrontEnd.Proofs.Token.Partition
import FrontEnd.Proofs.Token.Values
import FrontEnd.Proofs.TypeTexts
import FrontEnd.Proofs.Types
import FrontEnd.Proofs.Typing
import FrontEnd.Report.Json
import FrontEnd.Report.Text
import FrontEnd.SymbolTable
import FrontEnd.Text.Blank
import FrontEnd.Text.Split
import FrontEnd.Token.Category
import FrontEnd.Token.Cursor
import FrontEnd.Token.Lexeme
import FrontEnd.Token.Scanner
import FrontEnd.Token.Segment
import FrontEnd.Total
import FrontEnd.Tree
import FrontEnd.Ty
