import LedgerScript.Data.Roster
import LedgerScript.Ledger.Basic
import LedgerScript.Ledger.Digest

/-!
# A ledger in memory

Contracts are run by the programs of their kinds. A call works on a copy of the contract's
state, which replaces the state only when the program accepts the call. Addresses
and transaction hashes are digests of a counter of accepted transactions, so a run
can be repeated exactly.
-/

set_option autoImplicit false

namespace LedgerScript

structure Call where
  sender : String
  value : Option String
  address : String

/-- The behaviour of a kind of contract. -/
structure Program where
  construct : Call → List Wire → Except LedgerError (Fields Wire)
  read : Fields Wire → String → List Wire → Except LedgerError Wire
  send : Call → String → List Wire → LedgerM (Fields Wire) LedgerError Wire

def argumentAt (method : String) (args : List Wire) (position : Nat) : Except LedgerError Wire :=
  match args[position]? with
  | some w => .ok w
  | none => .error (.invalidArgument method ("missing argument " ++ toString position))

structure Contract where
  kind : String
  state : Fields Wire

/-- What transactions change: the contracts by their addresses in lower case, and the counters. -/
structure Chain where
  contracts : Roster String Contract
  nonce : Nat
  blockNumber : Nat

namespace Chain

def genesis : Chain := ⟨.empty, 0, 0⟩

def contract? (c : Chain) (address : String) : Option Contract :=
  c.contracts.get? address.toLower

def mine (c : Chain) (key : String) (contract : Contract) : Chain :=
  ⟨c.contracts.insert key contract, c.nonce + 1, c.blockNumber + 1⟩

end Chain

structure LocalLedger where
  programs : Roster String Program
  accounts : List String
  chain : Chain

namespace LocalLedger

def defaultAccountCount : Nat := 10

def baseGas : Nat := 21000

def gasPerArgument : Nat := 1000

def nowhere : String := "0x0000000000000000000000000000000000000000"

/-- The first twenty bytes of the digest of `seed:nonce`. -/
def deriveAddress (seed : String) (nonce : Nat) : String :=
  "0x" ++ Digest.hexOf ((Digest.ofText (seed ++ ":" ++ toString nonce)).take 20)

def deriveTxHash (address method : String) (nonce : Nat) : String :=
  "0x" ++ Digest.hexOf (Digest.ofText (address ++ ":" ++ method ++ ":" ++ toString nonce))

def withAccounts (count : Nat) : LocalLedger :=
  ⟨.empty, (List.range count).map (deriveAddress "account"), .genesis⟩

/-- Lets a program run the contracts of a kind, in place of the one that did. -/
def register (l : LocalLedger) (kind : String) (program : Program) : LocalLedger :=
  { l with programs := l.programs.insert kind program }

def stateOf? (l : LocalLedger) (address : String) : Option (Fields Wire) :=
  (l.chain.contract? address).map Contract.state

def blockNumber (l : LocalLedger) : Nat := l.chain.blockNumber

def senderOf (l : LocalLedger) (options : TxOptions) : String :=
  (options.sender.or l.accounts.head?).getD nowhere

def programOf (l : LocalLedger) (kind : String) : Except LedgerError Program :=
  match l.programs.get? kind with
  | some p => .ok p
  | none => .error (.unknownKind kind)

def contractAt (l : LocalLedger) (address : String) : Except LedgerError Contract :=
  match l.chain.contract? address with
  | some c => .ok c
  | none => .error (.unknownContract address)

def deploy (kind : String) (args : List Wire) (options : TxOptions) :
    LedgerM LocalLedger LedgerError Handle := do
  let l ← get
  let program ← l.programOf kind
  let address := deriveAddress "contract" l.chain.nonce
  let state ← program.construct ⟨l.senderOf options, options.value, address⟩ args
  set { l with chain := l.chain.mine address ⟨kind, state⟩ }
  return ⟨kind, address⟩

def read (handle : Handle) (method : String) (args : List Wire) :
    LedgerM LocalLedger LedgerError Wire := do
  let l ← get
  let contract ← l.contractAt handle.address
  let program ← l.programOf contract.kind
  program.read contract.state method args

def send (handle : Handle) (method : String) (args : List Wire) (options : TxOptions) :
    LedgerM LocalLedger LedgerError Invocation := do
  let l ← get
  let contract ← l.contractAt handle.address
  let program ← l.programOf contract.kind
  let call : Call := ⟨l.senderOf options, options.value, handle.address⟩
  match (program.send call method args).run contract.state with
  | (.error e, _) => return .rejected method e
  | (.ok value, state) =>
    let key := handle.address.toLower
    let chain := l.chain.mine key { contract with state := state }
    set { l with chain := chain }
    return .mined method value
      ⟨deriveTxHash key method chain.nonce, chain.blockNumber, baseGas + gasPerArgument * args.length⟩

instance : Ledger LocalLedger where
  accounts := do return (← get).accounts
  deploy := deploy
  read := read
  send := send

end LocalLedger

end LedgerScript
