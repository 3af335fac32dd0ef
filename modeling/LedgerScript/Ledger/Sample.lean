import LedgerScript.Ledger.Local

/-!
# Sample contracts

A cell whose value only its owner sets, and a store of values under string keys.
-/

set_option autoImplicit false

namespace LedgerScript.Sample

def unknownMethod {α : Type} (kind method : String) : Except LedgerError α :=
  .error (.unknownMethod kind method)

def textOr (dflt : Wire) : Option String → Wire
  | some s => .string s
  | none => dflt

def cellState (call : Call) (args : List Wire) : Except LedgerError (Fields Wire) := do
  let value ← argumentAt "constructor" args 0
  return .ofList [("value", value), ("owner", .string call.sender), ("deposit", .string "0")]

def cellRead (kind : String) (state : Fields Wire) (method : String) : Except LedgerError Wire :=
  match state.get? method with
  | some w => .ok w
  | none => unknownMethod kind method

def isOwner (state : Fields Wire) (sender : String) : Bool :=
  match state.get? "owner" with
  | some (.string owner) => owner == sender
  | _ => false

def cellSend (kind : String) (call : Call) (method : String) (args : List Wire) :
    LedgerM (Fields Wire) LedgerError Wire := do
  match method with
  | "setValue" =>
    if !isOwner (← get) call.sender then throw (.reverted "not owner")
    let value ← argumentAt method args 0
    modify (·.insert "value" value)
    return value
  | "deposit" =>
    let value := textOr (.string "0") call.value
    modify (·.insert "deposit" value)
    return value
  | "fail" =>
    modify (·.insert "value" (.string "-1"))
    throw (.reverted (kind.toLower ++ ": rejected"))
  | _ => unknownMethod kind method

/-- A value, the owner who alone may set it, and the last deposit. -/
def ownedCell (kind : String) : Program where
  construct := cellState
  read state method _ := cellRead kind state method
  send := cellSend kind

def keyOf (method : String) (args : List Wire) : Except LedgerError String := do
  match ← argumentAt method args 0 with
  | .string key => return key
  | _ => .error (.invalidArgument method "key must be a string")

def storeState (call : Call) (args : List Wire) : Except LedgerError (Fields Wire) := do
  let given : Fields Wire ←
    match args.head? with
    | none => pure .empty
    | some (.object fields) => pure (.ofList fields)
    | some _ => .error (.reverted "initial state must be an object")
  return given.insert "_by" (.array [.string call.sender, textOr .null call.value, .string call.address])

def storeRead (kind : String) (state : Fields Wire) (method : String) (args : List Wire) :
    Except LedgerError Wire := do
  match method with
  | "get" => return (state.get? (← keyOf method args)).getD .null
  | "keys" => return .array (state.names.map .string)
  | "echo" => return .array args
  | "reject" => .error (.reverted "read rejected")
  | "offline" => .error (.backend "store offline")
  | _ => unknownMethod kind method

def reasonOf : Wire → String
  | .string s => s
  | _ => ""

def storeSend (kind : String) (call : Call) (method : String) (args : List Wire) :
    LedgerM (Fields Wire) LedgerError Wire := do
  match method with
  | "put" =>
    let key ← keyOf method args
    let value ← argumentAt method args 1
    modify (·.insert key value)
    return value
  | "del" =>
    let key ← keyOf method args
    let present := ((← get).get? key).isSome
    modify (·.erase key)
    return .bool present
  | "whoami" =>
    return .objectOf [("sender", .string call.sender), ("value", textOr .null call.value),
      ("address", .string call.address)]
  | "clearThenReject" =>
    set (Fields.empty : Fields Wire)
    throw (.reverted (reasonOf (← argumentAt method args 0)))
  | "offline" => throw (.backend "store offline")
  | _ => unknownMethod kind method

def keyedStore (kind : String) : Program where
  construct := storeState
  read := storeRead kind
  send := storeSend kind

end LedgerScript.Sample
