import InfixCalculator.Main
import InfixCalculator.Text.Quoted
import InfixCalculator.Expr.Reader.Step
import InfixCalculator.Proofs.Text.Positional
import InfixCalculator.Proofs.Reading
import InfixCalculator.Proofs.Grammar
import InfixCalculator.Proofs.RoundTrip
import InfixCalculator.Proofs.RoundTrip.Unbound
import InfixCalculator.Proofs.Grouping
import InfixCalculator.Proofs.Chain
import InfixCalculator.Proofs.Failure
import InfixCalculator.Proofs.Exact
import InfixCalculator.Proofs.Exact.Range
import InfixCalculator.Proofs.Simplification
import InfixCalculator.Proofs.Simplification.Rounds
import InfixCalculator.Proofs.RoundTrip.Binary
import InfixCalculator.Proofs.Lockstep
import InfixCalculator.Proofs.Wrapping
import InfixCalculator.Proofs.Simplification.Wrapping
import InfixCalculator.Proofs.Alignment
import InfixCalculator.Proofs.Completion
import InfixCalculator.Proofs.Wrapping.Modular
import InfixCalculator.Proofs.Simplification.Binary
import InfixCalculator.Proofs.Log
import InfixCalculator.Proofs.Postfix
import InfixCalculator.Proofs.Spacing
import InfixCalculator.Proofs.Binding
import InfixCalculator.Proofs.Session
import InfixCalculator.Proofs.RoundTrip.Quoted
import InfixCalculator.Proofs.Descent
import InfixCalculator.Proofs.Descent.Progress
import InfixCalculator.Proofs.Descent.Agreement
import InfixCalculator.Proofs.Cursor
