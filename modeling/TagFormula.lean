import TagFormula.Catalog.Basic
import TagFormula.Catalog.Module
import TagFormula.CommandLine.FileTree
import TagFormula.CommandLine.Help
import TagFormula.CommandLine.Options
import TagFormula.CommandLine.Program
import TagFormula.Context
import TagFormula.Dictionary
import TagFormula.Digest
import TagFormula.Double.Arithmetic
import TagFormula.Double.Basic
import TagFormula.Double.Decimal
import TagFormula.Double.Reader
import TagFormula.Entry
import TagFormula.Expr.Basic
import TagFormula.Expr.Meaning
import TagFormula.Expr.Printer
import TagFormula.Fixture
import TagFormula.Formula
import TagFormula.Host.Printf
import TagFormula.Host.Programs
import TagFormula.Host.Shell.Arithmetic
import TagFormula.Host.Shell.Run
import TagFormula.Host.Shell.Session
import TagFormula.Host.Shell.Syntax
import TagFormula.Job.Basic
import TagFormula.Job.Command
import TagFormula.Literal.Matcher
import TagFormula.Literal.Number
import TagFormula.Literal.Quoted
import TagFormula.Log
import TagFormula.Main
import TagFormula.Module.Loader
import TagFormula.NormalForm
import TagFormula.Operator
import TagFormula.Pattern.ByteTest
import TagFormula.Pattern.Fault
import TagFormula.Pattern.Program
import TagFormula.Pattern.Regex
import TagFormula.Pattern.Search
import TagFormula.Pattern.Token
import TagFormula.Report.Basic
import TagFormula.Report.Printer
import TagFormula.Rule.Basic
import TagFormula.Rule.Call
import TagFormula.Rule.Conditional
import TagFormula.Rule.Leaf
import TagFormula.Rule.Operation
import TagFormula.Rule.Precedence
import TagFormula.Rule.Shape
import TagFormula.Source.Escape
import TagFormula.Source.Expression
import TagFormula.Source.Failure
import TagFormula.Text.Basic
import TagFormula.Text.Integer
import TagFormula.TokenTree
import TagFormula.Toolchain
import TagFormula.Validation
import TagFormula.Value.Arithmetic
import TagFormula.Value.Basic
import TagFormula.Value.Fault
import TagFormula.Value.Format
import TagFormula.Value.Function
import TagFormula.Value.Match
import TagFormula.Value.Operator
import TagFormula.Value.Template
import TagFormula.Value.View
import TagFormula.Proofs.Normalization
import TagFormula.Proofs.NumberToken
import TagFormula.Proofs.OperatorTree
import TagFormula.Proofs.Climbing
import TagFormula.Proofs.Printing
import TagFormula.Proofs.Regrouping
import TagFormula.Proofs.Replacement
import TagFormula.Proofs.Rounds
import TagFormula.Proofs.Merging
import TagFormula.Proofs.ReadingBack
import TagFormula.Proofs.Grammar
import TagFormula.Proofs.Runs
import TagFormula.Proofs.FlatSequence
import TagFormula.Proofs.Weight
import TagFormula.Proofs.DepthLimit
import TagFormula.Proofs.RoundLimit
import TagFormula.Proofs.PrefixCode
import TagFormula.Proofs.Writer
import TagFormula.Proofs.Phrase
import TagFormula.Proofs.Desugaring
import TagFormula.Proofs.FirstDefect
import TagFormula.Proofs.Termination
import TagFormula.Proofs.Atoms
import TagFormula.Proofs.GuardedDivision
import TagFormula.Proofs.NormalFormEquations
import TagFormula.Proofs.Agreement
import TagFormula.Proofs.ArgumentLists
import TagFormula.Proofs.BareCalls
import TagFormula.Proofs.Dictionary
import TagFormula.Proofs.CatalogHistory
import TagFormula.Proofs.CatalogSchedule
import TagFormula.Proofs.IdleRule
import TagFormula.Proofs.SourceReader
import TagFormula.Proofs.StringLiterals
import TagFormula.Proofs.DigestStandard
import TagFormula.Proofs.Streaming
import TagFormula.Proofs.EntryPoints
import TagFormula.Proofs.FieldSpellings
import TagFormula.Proofs.FreeText
import TagFormula.Proofs.ExactPower
import TagFormula.Proofs.LoaderLedger
import TagFormula.Proofs.Rounding
import TagFormula.Proofs.RadixLiteral
import TagFormula.Proofs.UnreadNumber
import TagFormula.Proofs.ExactArithmetic
import TagFormula.Proofs.NumericPrefix
import TagFormula.Proofs.RadixRoundTrip
import TagFormula.Proofs.Unpacking
import TagFormula.Proofs.ByteOrder
import TagFormula.Proofs.Skipping
import TagFormula.Proofs.Splitting
import TagFormula.Proofs.Directives
import TagFormula.Proofs.TextConversions
import TagFormula.Proofs.MatchTokens
import TagFormula.Proofs.NamedUnary
import TagFormula.Proofs.BitwiseWords
import TagFormula.Proofs.DoubleQuotes
import TagFormula.Proofs.Comparisons
import TagFormula.Proofs.NumericOrder
import TagFormula.Proofs.Erasure
import TagFormula.Proofs.Repetition
import TagFormula.Proofs.Interchange
import TagFormula.Proofs.OptionGroups
import TagFormula.Proofs.ReportLines
import TagFormula.Proofs.CommandWords
import TagFormula.Proofs.LiteralSpelling
