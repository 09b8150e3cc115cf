import QLisp.Diagnostic.Report
import QLisp.Proofs.Depth
import QLisp.Main
import QLisp.Proofs.Arithmetic
import QLisp.Proofs.Assignment
import QLisp.Proofs.Balance
import QLisp.Proofs.Blocks
import QLisp.Proofs.Captured
import QLisp.Proofs.Concatenation
import QLisp.Proofs.Conversation
import QLisp.Proofs.DynamicScope
import QLisp.Proofs.Finality
import QLisp.Proofs.Frame
import QLisp.Proofs.Invocation
import QLisp.Proofs.Layout
import QLisp.Proofs.LexicalGrammar
import QLisp.Proofs.LineColumn
import QLisp.Proofs.Overflow
import QLisp.Proofs.PositionalNotation
import QLisp.Proofs.Positions
import QLisp.Proofs.Prelude.Aggregates
import QLisp.Proofs.Prelude.ClauseScope
import QLisp.Proofs.Prelude.Passing
import QLisp.Proofs.Prelude.Prefixes
import QLisp.Proofs.Prelude.Retrieval
import QLisp.Proofs.PrintedNumbers
import QLisp.Proofs.Problems
import QLisp.Proofs.QuotientRounding
import QLisp.Proofs.Recovery
import QLisp.Proofs.RoundTrip
import QLisp.Proofs.Sequence
import QLisp.Proofs.Sharing
import QLisp.Proofs.ShownPlace
import QLisp.Proofs.Snippet
import QLisp.Proofs.Traceback
import QLisp.Proofs.VisibleNames
