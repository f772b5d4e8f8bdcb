import TreeScript.Main
import TreeScript.Plan.Fuel
import TreeScript.Term.Debug
import TreeScript.Term.Equality
import TreeScript.Value.Debug
import TreeScript.Proofs.Evaluation.BigStep
import TreeScript.Proofs.Evaluation.Isolation
import TreeScript.Proofs.Evaluation.Scoping
import TreeScript.Proofs.Evaluation.DepthLimit
import TreeScript.Proofs.Evaluation.Termination
import TreeScript.Proofs.Evaluation.LexicalFrames
import TreeScript.Proofs.Evaluation.Backtrace
import TreeScript.Proofs.Evaluation.Provenance
import TreeScript.Proofs.Plan.History
import TreeScript.Proofs.Plan.Parallel
import TreeScript.Proofs.Text.Numeral
import TreeScript.Proofs.Document.Decoding
import TreeScript.Proofs.Call.Locations
import TreeScript.Proofs.Evaluation.Coupling
import TreeScript.Proofs.Evaluation.Observers
import TreeScript.Proofs.Evaluation.Sessions
import TreeScript.Proofs.Evaluation.Locations
import TreeScript.Proofs.CommandLine.Outcome
import TreeScript.Proofs.Diagnostic.JsonLines
import TreeScript.Proofs.Evaluation.Unmentioned
import TreeScript.Proofs.Evaluation.Environments
import TreeScript.Proofs.Document.FirstFault
import TreeScript.Proofs.Operation.Laws
import TreeScript.Proofs.Value.Display
import TreeScript.Proofs.Evaluation.Counting
import TreeScript.Proofs.Value.Equality
import TreeScript.Proofs.Diagnostic.Reports
import TreeScript.Proofs.Document.Literals
import TreeScript.Proofs.Call.Operations
import TreeScript.Proofs.CommandLine.Arguments
