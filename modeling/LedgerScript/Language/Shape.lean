import LedgerScript.Language.Failure
import LedgerScript.World.Basic

/-!
# Shapes of arguments

How an event is read as an argument. A word is read as a literal of the wanted kind; a list
is evaluated as a value expression, whose value must be of that kind. An operation may also bring
a reading of its own, which takes part in lists and in exclusions like the others.
-/

set_option autoImplicit false

namespace LedgerScript

/-- What an operation can see: the world that its line starts from, the failure of the latest
command, and the evaluation of value expressions. -/
structure Scope (σ : Type) where
  world : World
  lastFailure : Option Failure
  evaluate : Event → LedgerM σ ArgumentError Value

inductive Shape (σ : Type) where
  | number
  | string
  | bool
  | address
  | event
  /-- Any value: a word is read as a number, a truth value, an address or else a string. -/
  | value
  | listOf (item : Shape σ)
  /-- One of some words, in any letter case. -/
  | oneOf (choices : List String)
  /-- What the inner shape takes, but for some words. -/
  | noneOf (inner : Shape σ) (reserved : List String)
  /-- Any other reading, under the name of its kind. -/
  | custom (kind : String) (read : Scope σ → Event → LedgerM σ ArgumentError Value)

namespace Shape

variable {σ : Type}

def kind : Shape σ → String
  | .number => "Number"
  | .string => "String"
  | .bool => "Bool"
  | .address => "Address"
  | .event => "Event"
  | .value => "Value"
  | .listOf item => "List<" ++ item.kind ++ ">"
  | .oneOf choices => "|".intercalate choices
  | .noneOf inner _ => inner.kind
  | .custom kind _ => kind

def boolWord? (s : String) : Option Bool :=
  if ["true", "yes", "1"].any (Text.sameWord s) then some true
  else if ["false", "no", "0"].any (Text.sameWord s) then some false
  else none

def literal (w : World) (s : String) : Value :=
  match Number.parse? s with
  | some n => .number n
  | none =>
    if Text.sameWord s "true" then .bool true
    else if Text.sameWord s "false" then .bool false
    else
      match w.resolve? s with
      | some a => .address a
      | none => .string s

def evaluateAs (scope : Scope σ) (e : Event) (kind : String) (accepts : Value → Bool) :
    LedgerM σ ArgumentError Value := do
  let v ← scope.evaluate e
  if accepts v then return v
  throw (.expected kind (e.text ++ " = " ++ v.display))

def isReserved (reserved : List String) : Event → Bool
  | .atom s => reserved.any (Text.sameWord s)
  | .list _ => false

def chosen? (choices : List String) : Event → Option String
  | .atom s => choices.find? (Text.sameWord s)
  | .list _ => none

def read (scope : Scope σ) : Shape σ → Event → LedgerM σ ArgumentError Value
  | .number, .atom s =>
    match Number.parse s with
    | .ok n => return .number n
    | .error e => throw (.numeric e)
  | .number, .list es => evaluateAs scope (.list es) "Number" (·.number?.isSome)
  | .string, .atom s => return .string s
  | .string, .list es => evaluateAs scope (.list es) "String" (·.string?.isSome)
  | .bool, .atom s =>
    match boolWord? s with
    | some b => return .bool b
    | none => throw (.expected "Bool" s)
  | .bool, .list es => evaluateAs scope (.list es) "Bool" (·.bool?.isSome)
  | .address, .atom s =>
    match scope.world.resolve? s with
    | some a => return .address a
    | none => throw (.unknownAlias s)
  | .address, .list es => evaluateAs scope (.list es) "Address" (·.address?.isSome)
  | .event, e => return .event e
  | .value, .atom s => return literal scope.world s
  | .value, .list es => scope.evaluate (.list es)
  | .listOf item, .list es => return .list (← es.mapM (read scope item))
  | .listOf item, .atom s => throw (.expected (listOf item).kind (Event.atom s).text)
  | .oneOf choices, e =>
    match chosen? choices e with
    | some word => return .string word
    | none => throw (.expected (oneOf choices : Shape σ).kind e.text)
  | .noneOf inner reserved, e =>
    if isReserved reserved e then
      throw (.expected (inner.kind ++ " other than " ++ "|".intercalate reserved) e.text)
    else read scope inner e
  | .custom _ read, e => read scope e

end Shape

end LedgerScript
