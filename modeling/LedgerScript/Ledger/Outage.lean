import LedgerScript.Data.Roster
import LedgerScript.Ledger.Basic

/-!
# Outages

A ledger behind a connection on which some kinds of calls are down. A call that is down fails
with its complaint and does not reach the ledger.
-/

set_option autoImplicit false

namespace LedgerScript

inductive LedgerCall where
  | accounts
  | deploy
  | read
  | send
  deriving DecidableEq

structure Outage (σ : Type) where
  ledger : σ
  down : Roster LedgerCall String

namespace Outage

variable {σ : Type} {α : Type}

def through (action : LedgerM σ LedgerError α) : LedgerM (Outage σ) LedgerError α :=
  fun s =>
    let (result, ledger) := action s.ledger
    (result, { s with ledger := ledger })

def guarded (call : LedgerCall) (action : LedgerM σ LedgerError α) :
    LedgerM (Outage σ) LedgerError α := do
  match (← get).down.get? call with
  | some complaint => throw (.backend complaint)
  | none => through action

instance [Ledger σ] : Ledger (Outage σ) where
  accounts := guarded .accounts Ledger.accounts
  deploy kind args options := guarded .deploy (Ledger.deploy kind args options)
  read handle method args := guarded .read (Ledger.read handle method args)
  send handle method args options := guarded .send (Ledger.send handle method args options)

end Outage

end LedgerScript
