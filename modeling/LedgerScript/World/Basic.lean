import LedgerScript.Data.Roster
import LedgerScript.Ledger.Basic
import LedgerScript.Value.Basic

/-!
# The world of a script

What one line of a script leaves to the next, the ledger apart: named accounts, registered
contracts, settings, the trace, and the options of the next transaction. Every
update makes a new world with the next revision.
-/

set_option autoImplicit false

namespace LedgerScript

abbrev Path := List String

namespace Path

def ofDotted (name : String) : Path := (name.toList.splitOn '.').map String.ofList

def dotted (path : Path) : String := ".".intercalate path

end Path

structure RegistryEntry where
  handle : Option Handle
  data : Fields Value

namespace RegistryEntry

def ofHandle (h : Handle) : RegistryEntry := ⟨some h, .empty⟩

def ofAddress (a : String) : RegistryEntry := ⟨none, Fields.empty.insert "address" (.address a)⟩

def withField (e : RegistryEntry) (name : String) (value : Value) : RegistryEntry :=
  { e with data := e.data.insert name value }

def address? (e : RegistryEntry) : Option String :=
  match e.handle with
  | some h => some h.address
  | none => (e.data.get? "address").bind Value.address?

def eqv (a b : RegistryEntry) : Bool := a.handle == b.handle && a.data.eqvBy Value.eqv b.data

end RegistryEntry

structure Settings where
  network : String
  dryRun : Bool
  /-- The name or address of the sender of a transaction that names none. -/
  defaultFrom : String
  flags : Fields String
  deriving DecidableEq

def Settings.standard : Settings := ⟨"development", false, "Root", .empty⟩

structure TraceEntry where
  message : String
  invocation : Option Invocation

def TraceEntry.eqv (a b : TraceEntry) : Bool :=
  a.message == b.message &&
    match a.invocation, b.invocation with
    | some i, some j => i.eqv j
    | none, none => true
    | _, _ => false

structure World where
  accounts : Roster String String
  registry : Roster Path RegistryEntry
  settings : Settings
  trace : List TraceEntry
  txOptions : TxOptions
  /-- The number of updates since the start. -/
  revision : Nat

namespace World

def start (settings : Settings) : World := ⟨.empty, .empty, settings, [], .none, 0⟩

def withAccount (w : World) (name address : String) : World :=
  { w with accounts := w.accounts.insert name address, revision := w.revision + 1 }

def register (w : World) (paths : List Path) (entry : RegistryEntry) : World :=
  { w with registry := w.registry.insertAll paths entry, revision := w.revision + 1 }

def withSettings (w : World) (settings : Settings) : World :=
  { w with settings := settings, revision := w.revision + 1 }

def traced (w : World) (message : String) (invocation : Option Invocation) : World :=
  { w with trace := w.trace ++ [⟨message, invocation⟩], revision := w.revision + 1 }

section

variable (w : World) (message : String) (invocation : Option Invocation)

@[simp] theorem traced_trace :
    (w.traced message invocation).trace = w.trace ++ [⟨message, invocation⟩] := rfl

@[simp] theorem traced_accounts : (w.traced message invocation).accounts = w.accounts := rfl

@[simp] theorem traced_registry : (w.traced message invocation).registry = w.registry := rfl

@[simp] theorem traced_settings : (w.traced message invocation).settings = w.settings := rfl

@[simp] theorem traced_txOptions : (w.traced message invocation).txOptions = w.txOptions := rfl

@[simp] theorem traced_revision : (w.traced message invocation).revision = w.revision + 1 := rfl

end

def withTxOptions (w : World) (options : TxOptions) : World :=
  { w with txOptions := options, revision := w.revision + 1 }

def clearTxOptions (w : World) : World := w.withTxOptions .none

def account? (w : World) (name : String) : Option String := w.accounts.get? name

def entry? (w : World) (path : Path) : Option RegistryEntry := w.registry.get? path

def lookup? (w : World) (name : String) : Option RegistryEntry := w.entry? (Path.ofDotted name)

/-- The first registered contract at an address. -/
def handleAt? (w : World) (address : String) : Option Handle :=
  (w.registry.values.filterMap RegistryEntry.handle).find?
    (fun h => Text.sameWord h.address address)

/-- The address that a token names: itself, an account's, or a registered one's. -/
def resolve? (w : World) (token : String) : Option String :=
  if isAddress token then some token
  else
    match w.account? token with
    | some a => some a
    | none => (w.lookup? token).bind RegistryEntry.address?

def sender? (w : World) : Option String :=
  match w.txOptions.sender with
  | some a => some a
  | none => w.resolve? w.settings.defaultFrom

/-- Equality in all parts but the revision. The order of accounts and of registered paths
does not count, nor does a difference that the values themselves disregard. -/
def eqv (w v : World) : Bool :=
  w.accounts.eqvBy (· == ·) v.accounts && w.registry.eqvBy RegistryEntry.eqv v.registry &&
    w.settings == v.settings && w.trace.length == v.trace.length &&
    (w.trace.zip v.trace).all (fun (a, b) => a.eqv b) && w.txOptions == v.txOptions

/-- Whether a world that came out of `w` is still `w`, not updated even once. -/
def isUnchanged (w after : World) : Bool := after.revision == w.revision

/-- The world after a run in `inner`, which is `outer` with other transaction options, with
the options of `outer` put back. That is no update of its own. -/
def leave (outer inner after : World) : World :=
  { after with
    txOptions := outer.txOptions
    revision := if inner.isUnchanged after then outer.revision else after.revision }

end World

end LedgerScript
