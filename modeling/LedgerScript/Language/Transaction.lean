import LedgerScript.Value.Exchange
import LedgerScript.World.Naming

/-!
# Ledger calls of operations

Calls carry the sender and the attached value of the world. A rejection by the ledger becomes the
failure of the operation; a call that went through is traced.
-/

set_option autoImplicit false

namespace LedgerScript.Transaction

def options (w : World) : Except Failure TxOptions := do
  return ⟨some (← w.sender), w.txOptions.value⟩

def rejection (method : String) : LedgerError → Failure
  | .reverted reason => .reverted method reason none
  | e => .ledger e

def accepted (w : World) (message method : String) (i : Invocation) : Except Failure World :=
  match i.error with
  | none => .ok (w.traced message (some i))
  | some (.reverted reason) => .error (.reverted method reason (some i))
  | some e => .error (.ledger e)

variable {σ : Type} [Ledger σ]

/-- Deploys a contract and traces that; the contract is not yet registered. -/
def deploy (w : World) (kind : String) (args : List Value) :
    LedgerM σ Failure (World × Handle) := do
  let opts ← options w
  let h ← (Ledger.deploy kind (Value.toWires args) opts).restate (rejection "constructor")
  return (w.traced ("Deployed " ++ kind ++ " to " ++ h.address) none, h)

def read (h : Handle) (method : String) (args : List Value) : LedgerM σ Failure Value := do
  return .ofWire (← (Ledger.read h method (Value.toWires args)).restate (rejection method))

/-- Sends a call and traces it. In a dry run the call is traced but not sent. -/
def send (w : World) (h : Handle) (method : String) (args : List Value) :
    LedgerM σ Failure World := do
  let opts ← options w
  let message := h.kind ++ " " ++ method
  if w.settings.dryRun then return w.traced ("[dry run] " ++ message) none
  let i ← (Ledger.send h method (Value.toWires args) opts).restate .ledger
  accepted w message method i

end LedgerScript.Transaction
