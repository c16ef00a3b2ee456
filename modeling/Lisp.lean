import Lisp.Proofs.Builtins.Arithmetic
import Lisp.Proofs.Eval.Analysis
import Lisp.Proofs.Eval.Course
import Lisp.Proofs.Eval.Definitions
import Lisp.Proofs.Eval.Expansion
import Lisp.Proofs.Eval.Footprint
import Lisp.Proofs.Eval.Invocation
import Lisp.Proofs.Eval.Limit
import Lisp.Proofs.Eval.Termination
import Lisp.Proofs.Family.Growth
import Lisp.Proofs.Family.WellFormed
import Lisp.Proofs.Native.Calls
import Lisp.Proofs.Number.NotANumber
import Lisp.Proofs.Number.RadixLiteral
import Lisp.Proofs.Number.SecondSign
import Lisp.Proofs.Reader.Agreement
import Lisp.Proofs.Reader.Characters
import Lisp.Proofs.Reader.Counters
import Lisp.Proofs.Reader.Image
import Lisp.Proofs.Reader.Lines
import Lisp.Proofs.Reader.RoundTrip
import Lisp.Proofs.Tasks.Completion
import Lisp.Proofs.Value.Ordering
import Lisp.Session.Basic
import Lisp.Session.Lists
import Lisp.Session.Reading
