import LedgerScript.Language.Family

/-!
# Core value expressions

Arithmetic, comparisons, lists, conversions and constants; a literal is the fallback. They answer
every value expression that no family of its own does.
-/

set_option autoImplicit false

namespace LedgerScript.Standard

variable {σ : Type}

def numberParam (name : String) : Param σ := { name, shape := .number }

def valueParam (name : String) : Param σ := { name, shape := .value }

def numeric (x : Except NumericError Number) : Except Failure Value :=
  match x with
  | .ok n => .ok (.number n)
  | .error e => .error (.numeric e)

def unary (op : Number → Except NumericError Number) : Fetch σ := fun _ b => do
  numeric (op (← b.number "n"))

def binary (op : Number → Number → Except NumericError Number) : Fetch σ := fun _ b => do
  numeric (op (← b.number "a") (← b.number "b"))

def comparison (holds : Value → Value → Bool) : Fetch σ := fun _ b => do
  return .bool (holds (← b.value "a") (← b.value "b"))

def passed : Fetch σ := fun _ b => b.value "value"

def constant (v : Value) : Fetch σ := fun _ _ => return v

def isLess (a b : Value) : Bool := a.compare? b == some .lt

def isGreater (a b : Value) : Bool := a.compare? b == some .gt

def numberPair : List (Param σ) := [numberParam "a", numberParam "b"]

def valuePair : List (Param σ) := [valueParam "a", valueParam "b"]

def coreOperations : List (Operation σ) := [
  .fetcher "Exactly" [numberParam "n"] (unary .ok)
    "Returns the number as written, e.g. `(Exactly 1.5)`.",
  .fetcher "Exp" [numberParam "n"] (unary Number.exp)
    "Returns n × 10^18, e.g. `(Exp 1.5)` is `1.5e18`.",
  .fetcher "Add" numberPair (binary Number.add) "Returns a + b.",
  .fetcher "Sub" numberPair (binary Number.sub) "Returns a - b.",
  .fetcher "Mul" numberPair (binary Number.mul) "Returns a * b.",
  .fetcher "Div" numberPair (binary Number.div) "Returns a / b.",
  .fetcher "Min" numberPair (binary fun a b => .ok (a.min b)) "Returns the smaller of a and b.",
  .fetcher "Max" numberPair (binary fun a b => .ok (a.max b)) "Returns the larger of a and b.",
  .fetcher "Equal" valuePair (comparison Value.eqv) "True when a equals b.",
  .fetcher "LessThan" valuePair (comparison isLess) "True when a < b.",
  .fetcher "GreaterThan" valuePair (comparison isGreater) "True when a > b.",
  .fetcher "List" [{ valueParam "value" with variadic := true, mapped := true }] passed
    "Returns a list of the given values, e.g. `(List 1 2 3)`.",
  .fetcher "Address" [{ name := "value", shape := .address }] passed
    "Resolves an account, alias or literal to an address.",
  .fetcher "String" [{ name := "value", shape := .string }] passed
    "Returns the token as a string.",
  .fetcher "True" [] (constant (.bool true)) "",
  .fetcher "False" [] (constant (.bool false)) "",
  .fetcher "Nothing" [] (constant .nothing) "",
  .fetcher "" [{ valueParam "value" with catchall := true }] passed
    "A literal: number, True/False, known address, else a string."]

def coreValues : Family σ where
  name := ""
  operations := coreOperations
  wellFormed := Family.wellFormed_of_complaint? _ rfl

end LedgerScript.Standard
