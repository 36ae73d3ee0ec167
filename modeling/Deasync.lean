import Deasync.Capture
import Deasync.Capture.Tie
import Deasync.CommandLine.Arguments
import Deasync.CommandLine.Directory
import Deasync.CommandLine.FileName
import Deasync.CommandLine.Json
import Deasync.CommandLine.Report
import Deasync.CommandLine.Session
import Deasync.Delimiter
import Deasync.Expansion.Inner
import Deasync.Expansion.Item
import Deasync.Expansion.Lift
import Deasync.Expansion.Substitution
import Deasync.Expansion.Unit
import Deasync.Fault
import Deasync.Grammar.Chart
import Deasync.Grammar.Reading
import Deasync.Grammar.Rules
import Deasync.Grammar.Symbol
import Deasync.Main
import Deasync.Options
import Deasync.Outline
import Deasync.Position
import Deasync.Proofs.Capture.Filling
import Deasync.Proofs.Capture.Fresh
import Deasync.Proofs.Capture.Hidden
import Deasync.Proofs.Capture.Naming
import Deasync.Proofs.Capture.Outlives
import Deasync.Proofs.Capture.Scope
import Deasync.Proofs.Capture.Tree
import Deasync.Proofs.Capture.Tying
import Deasync.Proofs.DeclarationOutline
import Deasync.Proofs.DiagnosticPlaces
import Deasync.Proofs.Elements
import Deasync.Proofs.Extents
import Deasync.Proofs.FaultPlaces
import Deasync.Proofs.FaultRanges
import Deasync.Proofs.Grammar.Acceptance
import Deasync.Proofs.Grammar.Balance
import Deasync.Proofs.Grammar.Charting
import Deasync.Proofs.Grammar.Contract
import Deasync.Proofs.Grammar.Determinacy
import Deasync.Proofs.Grammar.Modifiers
import Deasync.Proofs.Grammar.Parts
import Deasync.Proofs.Grammar.Preference
import Deasync.Proofs.Grammar.Respelling
import Deasync.Proofs.Grammar.TypeRespelling
import Deasync.Proofs.Grammar.TypeWalk
import Deasync.Proofs.Heading
import Deasync.Proofs.Indenting
import Deasync.Proofs.InnerBody
import Deasync.Proofs.InnerCall
import Deasync.Proofs.InnerFunction
import Deasync.Proofs.Levels
import Deasync.Proofs.Lexeme.Cut
import Deasync.Proofs.Lexeme.Exchange
import Deasync.Proofs.Lexeme.Growth
import Deasync.Proofs.Lexeme.Literal
import Deasync.Proofs.Lexeme.Rows
import Deasync.Proofs.Lexing
import Deasync.Proofs.Lifting
import Deasync.Proofs.MethodExpansion
import Deasync.Proofs.Nesting
import Deasync.Proofs.OutlineContext
import Deasync.Proofs.OutlineLayout
import Deasync.Proofs.OutlineRefusal
import Deasync.Proofs.OutlineSteps
import Deasync.Proofs.Outlining
import Deasync.Proofs.Printing.Items
import Deasync.Proofs.Printing.Relexing
import Deasync.Proofs.Printing.Rereading
import Deasync.Proofs.Printing.RoundTrip
import Deasync.Proofs.Printing.Sources
import Deasync.Proofs.Printing.Spacing
import Deasync.Proofs.Printing.TypeReading
import Deasync.Proofs.Printing.Unplaced
import Deasync.Proofs.Printing.Values
import Deasync.Proofs.SignatureParts
import Deasync.Proofs.Splicing
import Deasync.Proofs.Substituting
import Deasync.Proofs.Succession
import Deasync.Proofs.UnitExpansion
import Deasync.Receiver
import Deasync.Syntax.Declaration
import Deasync.Syntax.Printer
import Deasync.Syntax.Signature
import Deasync.Syntax.Ty
import Deasync.Text.Blank
import Deasync.Text.Digit
import Deasync.Text.Printable
import Deasync.Text.Quoted
import Deasync.Text.Slice
import Deasync.Token
import Deasync.Token.Lexeme
import Deasync.Token.Lexer
import Deasync.Proofs.Borrowing
import Deasync.Proofs.LocalExpansion
import Deasync.Proofs.Rewording
import Deasync.Proofs.MarkerOrigins
import Deasync.Proofs.InPlace
import Deasync.Proofs.LifetimeArity
import Deasync.Proofs.Grammar.Reach
import Deasync.Proofs.SyntaxErrors
import Deasync.Proofs.Tiling
import Deasync.Proofs.Matching
import Deasync.Proofs.Rebasing
import Deasync.Proofs.IndentedLines
import Deasync.Proofs.Printing.Relocation
import Deasync.Proofs.ParameterLists
import Deasync.Proofs.BareParameters
import Deasync.Proofs.Defaults
