import LetLang.Token
import LetLang.Token.Lexer
import LetLang.Tree
import LetLang.Tree.Printer
import LetLang.Diagnostic
import LetLang.Parser
import LetLang.Tree.Parser
import LetLang.Text.Printable
import LetLang.Text.Quoted
import LetLang.Text.Blank
import LetLang.Fault
import LetLang.Value
import LetLang.Value.Operator
import LetLang.Store
import LetLang.Machine
import LetLang.Evaluation
import LetLang.Log
import LetLang.Text.Lines
import LetLang.Writer
import LetLang.Session
import LetLang.PromptLoop
import LetLang.Text.Digits
import LetLang.Text.Octets
import LetLang.Yaml.Cursor
import LetLang.Yaml.Source
import LetLang.Yaml.Problem
import LetLang.Yaml.Gap
import LetLang.Yaml.Scalar
import LetLang.Yaml.Property
import LetLang.Yaml.Token
import LetLang.Yaml.Directive
import LetLang.Yaml.Lookahead
import LetLang.Yaml.Tag
import LetLang.Yaml.Node
import LetLang.Yaml.Number
import LetLang.Yaml.Timestamp
import LetLang.Yaml.Meaning
import LetLang.Yaml.Reader
import LetLang.Path
import LetLang.FileSystem
import LetLang.FileTree
import LetLang.Settings
import LetLang.Settings.Decoder
import LetLang.Settings.Document
import LetLang.Settings.File
import LetLang.Text.Control
import LetLang.Script
import LetLang.Flags
import LetLang.History
import LetLang.Interactive
import LetLang.Command
import LetLang.Main
import LetLang.Proofs.Grammar
import LetLang.Proofs.Grammar.Leading
import LetLang.Proofs.Grammar.Beginning
import LetLang.Proofs.Parser.Steps
import LetLang.Proofs.Parser.Calls
import LetLang.Proofs.Parser.Fuel
import LetLang.Proofs.Parser.Descent
import LetLang.Proofs.Parser.Soundness
import LetLang.Proofs.Parser.Completeness
import LetLang.Proofs.Parser.Lookahead
import LetLang.Proofs.Token.Separation
import LetLang.Proofs.Rendering
import LetLang.Proofs.Parser.RoundTrip
import LetLang.Proofs.Store
import LetLang.Proofs.Evaluation.Plan
import LetLang.Proofs.Evaluation.Runs
import LetLang.Proofs.Evaluation.Changes
import LetLang.Proofs.Evaluation.Termination
import LetLang.Proofs.Evaluation.Returns
import LetLang.Proofs.Evaluation.ReturnPosition
import LetLang.Proofs.Evaluation.Agreement
import LetLang.Proofs.Evaluation.Conduct
import LetLang.Proofs.Evaluation.DepthLimit
import LetLang.Proofs.Evaluation.Cancellation
import LetLang.Proofs.Evaluation.Raising
import LetLang.Proofs.Evaluation.Writes
import LetLang.Proofs.Parser.FirstDiagnostic
import LetLang.Proofs.Parser.Joining
import LetLang.Proofs.Evaluation.Noninterference
import LetLang.Proofs.Evaluation.Sequence
import LetLang.Proofs.Session
import LetLang.Proofs.Evaluation.EarlyExit
import LetLang.Proofs.Parser.SourceOrder
import LetLang.Proofs.Token.MaximalMunch
import LetLang.Proofs.Token.Cursor
import LetLang.Proofs.Evaluation.Presence
import LetLang.Proofs.Command
import LetLang.Proofs.PromptLoop
import LetLang.Proofs.Interactive
import LetLang.Proofs.Parser.PrintedForm
import LetLang.Proofs.Evaluation.PrintedInteger
import LetLang.Proofs.Evaluation.Arithmetic
import LetLang.Proofs.Evaluation.CallLog
import LetLang.Proofs.Evaluation.Equality
import LetLang.Proofs.Settings
