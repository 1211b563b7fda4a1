import Treewalk.Main
import Treewalk.Proofs.Grammar.Basic
import Treewalk.Proofs.Grammar.Expressions
import Treewalk.Proofs.Grammar.Statements
import Treewalk.Proofs.Grammar.Programs
import Treewalk.Proofs.Environment.Stack
import Treewalk.Proofs.Environment.Evolution
import Treewalk.Proofs.Syntax.Shape
import Treewalk.Proofs.Syntax.Occurrences
import Treewalk.Proofs.Eval.Lockstep
import Treewalk.Proofs.Eval.Frame
import Treewalk.Proofs.Eval.ForLoop
import Treewalk.Proofs.Eval.Switch
import Treewalk.Proofs.Eval.Footprint
import Treewalk.Proofs.Eval.LoopControl
import Treewalk.Proofs.Eval.Trace
import Treewalk.Proofs.Eval.Scoping
import Treewalk.Proofs.Scan.Append
import Treewalk.Proofs.Parse.Relocation
import Treewalk.Proofs.Parse.Regular
import Treewalk.Proofs.Session.Concatenation
import Treewalk.Proofs.Session.Requests
import Treewalk.Proofs.Session.Prompt
import Treewalk.Proofs.Session.Scoping
import Treewalk.Proofs.Environment.Refinement
import Treewalk.Proofs.Eval.Exit
import Treewalk.Proofs.Parse.Recovery
import Treewalk.Proofs.Scan.Lexemes
import Treewalk.Proofs.Scan.Pieces
import Treewalk.Proofs.Syntax.Expressions
import Treewalk.Proofs.Parse.Tokens
import Treewalk.Proofs.Eval.Composition
import Treewalk.Proofs.Eval.Operators
import Treewalk.Proofs.Session.Outcomes
import Treewalk.Proofs.Session.Places
import Treewalk.Proofs.Session.History
import Treewalk.Proofs.CommandLine.Lines
import Treewalk.Proofs.Eval.Output
import Treewalk.Proofs.CommandLine.Typing
import Treewalk.Proofs.Eval.Truncation
import Treewalk.Proofs.Parse.Depth
import Treewalk.Proofs.Parse.Termination
import Treewalk.Proofs.Number.Bits
import Treewalk.Proofs.Number.ReadBack
import Treewalk.Proofs.Scan.Printed
import Treewalk.Proofs.Session.ReadBack
import Treewalk.Proofs.Scan.Layout
import Treewalk.Proofs.Grammar.Listing
import Treewalk.Proofs.Session.Postfix
import Treewalk.Proofs.Grammar.Sources
import Treewalk.Proofs.Scan.PrintedStatements
import Treewalk.Proofs.Session.UniqueReading
import Treewalk.Proofs.Scan.LineNumbers
import Treewalk.Proofs.Scan.Quoting
