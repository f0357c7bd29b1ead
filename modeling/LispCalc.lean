import LispCalc.Binary64
import LispCalc.Binary64.Arithmetic
import LispCalc.Binary64.Rounding
import LispCalc.CommandLine
import LispCalc.Decimal
import LispCalc.Decimal.Numeral
import LispCalc.Decimal.Shortest
import LispCalc.Environment
import LispCalc.EvalError
import LispCalc.Evaluation
import LispCalc.Event
import LispCalc.Expr
import LispCalc.Expr.Eval
import LispCalc.Main
import LispCalc.Notice
import LispCalc.Operator
import LispCalc.Operator.Apply
import LispCalc.Options
import LispCalc.Proofs.Operator
import LispCalc.Proofs.Outcome
import LispCalc.Report
import LispCalc.Session
import LispCalc.Source.Form
import LispCalc.Source.ReadError
import LispCalc.Source.Token
import LispCalc.Text.WhiteSpace
import LispCalc.Value
import LispCalc.Proofs.DepthLimit
import LispCalc.Proofs.Policies
import LispCalc.Proofs.RaisedErrors
import LispCalc.Proofs.Source.Chunks
import LispCalc.Proofs.Source.Grammar
import LispCalc.Proofs.Source.Layout
import LispCalc.Proofs.Source.RoundTrip
import LispCalc.Proofs.Writes
import LispCalc.Proofs.Names
import LispCalc.Proofs.Nil
import LispCalc.Proofs.Source.Concatenation
import LispCalc.Proofs.Environment
import LispCalc.Proofs.Counting
import LispCalc.Proofs.Splitting
import LispCalc.Proofs.FailedDefinitions
import LispCalc.Proofs.Nesting
import LispCalc.Proofs.Unvisited
import LispCalc.Proofs.ReturnedErrors
import LispCalc.Proofs.CommandLine
import LispCalc.Proofs.Binary64.Magnitude
import LispCalc.Proofs.Binary64.Nearest
import LispCalc.Proofs.Binary64.Integer
import LispCalc.Proofs.Integer.Bits
import LispCalc.Proofs.Integer.Operators
import LispCalc.Proofs.Integer.Tree
import LispCalc.Proofs.Binary64.Truncation
import LispCalc.Proofs.Integer.Remainder
import LispCalc.Proofs.Operator.Contract
import LispCalc.Proofs.Source.Places
import LispCalc.Proofs.Source.Errors
import LispCalc.Proofs.Entries
import LispCalc.Proofs.SourceOrder
import LispCalc.Proofs.Options
import LispCalc.Proofs.Equality
import LispCalc.Proofs.Integer.Coercion
import LispCalc.Proofs.Decimal.RoundTrip
import LispCalc.Proofs.Numeral.Classification
import LispCalc.Proofs.Numeral.Rounding
import LispCalc.Proofs.History
