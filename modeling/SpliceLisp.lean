import SpliceLisp.Main
import SpliceLisp.Proofs.Grammar
import SpliceLisp.Proofs.Readable
import SpliceLisp.Proofs.RoundTrip
import SpliceLisp.Proofs.Substitution
import SpliceLisp.Proofs.Direct
import SpliceLisp.Proofs.Adequacy
import SpliceLisp.Proofs.Congruence
import SpliceLisp.Proofs.Cache
import SpliceLisp.Proofs.Program
import SpliceLisp.Proofs.Stray
import SpliceLisp.Proofs.Turns
import SpliceLisp.Proofs.Calls
import SpliceLisp.Proofs.Invariant
import SpliceLisp.Proofs.NumberValue
import SpliceLisp.Proofs.WellFormed
import SpliceLisp.Proofs.Isolation
import SpliceLisp.Proofs.OutOfReach
import SpliceLisp.Proofs.Completion
import SpliceLisp.Proofs.HistoryFile
import SpliceLisp.Proofs.Transcript
import SpliceLisp.Proofs.Depth
import SpliceLisp.Proofs.Alike
import SpliceLisp.Proofs.Inert
import SpliceLisp.Proofs.Afresh
import SpliceLisp.Proofs.Application
import SpliceLisp.Proofs.Span
import SpliceLisp.Proofs.Replies
import SpliceLisp.Proofs.Extension
import SpliceLisp.Proofs.Retrace
import SpliceLisp.Proofs.Data
import SpliceLisp.Proofs.OnValues
import SpliceLisp.Proofs.OnData
import SpliceLisp.Proofs.Slices
import SpliceLisp.Proofs.Concatenation
import SpliceLisp.Proofs.Deferred
import SpliceLisp.Proofs.ReadBack
import SpliceLisp.Proofs.FirstExpression
import SpliceLisp.Proofs.Bound
import SpliceLisp.Proofs.Sameness
import SpliceLisp.Proofs.Positional
