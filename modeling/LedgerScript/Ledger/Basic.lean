import LedgerScript.Wire.Basic

/-!
# Ledgers

What a script asks of a ledger, and what the ledger answers. A call that the ledger
rejects is an answer to a send: the invocation then carries the error. Only a call that
was never attempted is an error of the send itself.
-/

set_option autoImplicit false

namespace LedgerScript

structure Handle where
  kind : String
  address : String
  deriving DecidableEq, Inhabited

structure TxOptions where
  sender : Option String
  value : Option String
  deriving DecidableEq, Inhabited

def TxOptions.none : TxOptions := ⟨.none, .none⟩

inductive LedgerError where
  | reverted (reason : String)
  | unknownKind (kind : String)
  | unknownContract (address : String)
  | unknownMethod (kind method : String)
  | invalidArgument (method complaint : String)
  | backend (complaint : String)
  deriving DecidableEq

namespace LedgerError

def message : LedgerError → String
  | .reverted reason => "reverted: " ++ reason
  | .unknownKind kind => "unknown contract kind: " ++ kind
  | .unknownContract address => "no contract at address " ++ address
  | .unknownMethod kind method => kind ++ " has no method " ++ method
  | .invalidArgument method complaint => "invalid argument for " ++ method ++ ": " ++ complaint
  | .backend complaint => "ledger backend error: " ++ complaint

def revertReason? : LedgerError → Option String
  | .reverted reason => some reason
  | _ => none

end LedgerError

structure Receipt where
  txHash : String
  blockNumber : Nat
  gasUsed : Nat
  deriving DecidableEq

/-- A call that was sent: its value and receipt if it was mined, its error if it was rejected. -/
structure Invocation where
  method : String
  value : Option Wire
  receipt : Option Receipt
  error : Option LedgerError

namespace Invocation

def mined (method : String) (value : Wire) (receipt : Receipt) : Invocation :=
  ⟨method, some value, some receipt, none⟩

def rejected (method : String) (error : LedgerError) : Invocation :=
  ⟨method, none, none, some error⟩

def isSuccess (i : Invocation) : Bool := i.error.isNone

def eqvValue : Option Wire → Option Wire → Bool
  | some v, some w => v.eqv w
  | none, none => true
  | _, _ => false

def eqv (i j : Invocation) : Bool :=
  i.method == j.method && eqvValue i.value j.value && i.receipt == j.receipt && i.error == j.error

end Invocation

/-- An action on a ledger state that may fail. What it did to the state before it failed stays. -/
abbrev LedgerM (σ ε : Type) : Type → Type := ExceptT ε (StateM σ)

/-- The calls of a ledger whose state is a `σ`. -/
class Ledger (σ : Type) where
  accounts : LedgerM σ LedgerError (List String)
  deploy : String → List Wire → TxOptions → LedgerM σ LedgerError Handle
  read : Handle → String → List Wire → LedgerM σ LedgerError Wire
  send : Handle → String → List Wire → TxOptions → LedgerM σ LedgerError Invocation

end LedgerScript
