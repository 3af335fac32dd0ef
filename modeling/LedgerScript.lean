import LedgerScript.Config.Reading
import LedgerScript.Language.Transaction
import LedgerScript.Ledger.Outage
import LedgerScript.Ledger.Sample
import LedgerScript.Run.Script
import LedgerScript.Standard.Vocabulary
import LedgerScript.World.History
import LedgerScript.Wire.Reading
import LedgerScript.Proofs.RoundTrip
import LedgerScript.Proofs.Action
import LedgerScript.Proofs.Routing
import LedgerScript.Proofs.Recovery
import LedgerScript.Proofs.Forms
import LedgerScript.Proofs.Binding
import LedgerScript.Proofs.Selection
import LedgerScript.Proofs.Arithmetic
import LedgerScript.Proofs.Computed
import LedgerScript.Proofs.Exchange
import LedgerScript.Proofs.ArithmeticFailure
import LedgerScript.Proofs.Calls
import LedgerScript.Proofs.Grouping
import LedgerScript.Proofs.Derived
import LedgerScript.Proofs.Verdicts
import LedgerScript.Proofs.Halting
import LedgerScript.Proofs.Joining
import LedgerScript.Proofs.Rejection
import LedgerScript.Proofs.Worlds
import LedgerScript.Proofs.Flags
import LedgerScript.Proofs.Footprint
import LedgerScript.Proofs.StandardOperations
import LedgerScript.Proofs.Dispatch
import LedgerScript.Proofs.DryRuns
import LedgerScript.Proofs.Growth
import LedgerScript.Proofs.Typing
import LedgerScript.Proofs.Comparison
import LedgerScript.Proofs.Supply
import LedgerScript.Proofs.Position
import LedgerScript.Proofs.Choice
import LedgerScript.Proofs.NormalForm
import LedgerScript.Proofs.Grammar
import LedgerScript.Proofs.Exactness
import LedgerScript.Proofs.Truncation
import LedgerScript.Proofs.Layout
import LedgerScript.Proofs.Scripts
import LedgerScript.Proofs.Nesting
import LedgerScript.Proofs.Registration
import LedgerScript.Proofs.Documentation
