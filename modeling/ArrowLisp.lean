import ArrowLisp.Main
import ArrowLisp.Proofs.Arena.History
import ArrowLisp.Proofs.CommandLine.Shorthand
import ArrowLisp.Proofs.Dispatch
import ArrowLisp.Proofs.Environments.History
import ArrowLisp.Proofs.Equality
import ArrowLisp.Proofs.Interning.History
import ArrowLisp.Proofs.Machine.Authority
import ArrowLisp.Proofs.Machine.Closedness
import ArrowLisp.Proofs.Machine.Coincidence
import ArrowLisp.Proofs.Machine.EmptyCalls
import ArrowLisp.Proofs.Machine.Laws
import ArrowLisp.Proofs.Machine.Propagation
import ArrowLisp.Proofs.Machine.Scoping
import ArrowLisp.Proofs.Natural.Agreement
import ArrowLisp.Proofs.Number.Notation
import ArrowLisp.Proofs.Number.Precision
import ArrowLisp.Proofs.Number.Value
import ArrowLisp.Proofs.Program.Answers
import ArrowLisp.Proofs.Program.Canonical
import ArrowLisp.Proofs.Program.Grammar
import ArrowLisp.Proofs.Program.Layout
import ArrowLisp.Proofs.Program.Naming
import ArrowLisp.Proofs.Program.Rendering
import ArrowLisp.Proofs.Program.Splitting
import ArrowLisp.Proofs.Report
import ArrowLisp.Proofs.Serialization
import ArrowLisp.Proofs.Sessions
import ArrowLisp.Proofs.Sessions.Effects
import ArrowLisp.Proofs.Sessions.Identity
import ArrowLisp.Proofs.Sexp.Offences
