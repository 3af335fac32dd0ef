import LedgerScript.Language.Family

/-!
# Assertions

An assertion that holds leaves the world as it is; one that does not is a fatal error. Some
look at the error of the latest command, so that a script can state that a call was to fail.
-/

set_option autoImplicit false

namespace LedgerScript.Standard

variable {σ : Type}

def ensure (scope : Scope σ) (holds : Bool) (complaint : String) : Except Failure World :=
  if holds then .ok scope.world else .error (.assertion complaint)

def lastReason : Resolver := fun _ lastFailure =>
  .ok ((lastFailure.map (.string ·.reason)).getD .nothing)

def lastReverted : Resolver := fun _ lastFailure => .ok (.bool (lastFailure.any (·.isRevert)))

def assertPair (holds : Value → Value → Bool) (between : String) : Change σ := fun scope b => do
  let x ← b.value "a"
  let y ← b.value "b"
  ensure scope (holds x y) ("expected " ++ x.display ++ between ++ y.display)

def assertIs (wanted : Bool) (complaint : String) : Change σ := fun scope b => do
  ensure scope ((← b.bool "value") == wanted) complaint

def assertSuccess : Change σ := fun scope b => do
  let e ← b.value "error"
  ensure scope e.isNothing ("expected success, last command failed: " ++ e.display)

def ensureReason (scope : Scope σ) (wanted : Option Value) (word found : String) :
    Except Failure World :=
  match wanted with
  | none => .ok scope.world
  | some v => ensure scope (v.display == found)
    ("expected " ++ word ++ " `" ++ v.display ++ "`, got `" ++ found ++ "`")

def assertFailure : Change σ := fun scope b =>
  match b.optional "error" with
  | none => throw (.assertion "expected failure, last command succeeded")
  | some e => .ofExcept (ensureReason scope (b.optional "reason") "failure" e.display)

def withoutRevert : Option Value → String
  | some e => "failed without revert: " ++ e.display
  | none => "succeeded"

def assertRevert : Change σ := fun scope b => do
  if ← b.bool "reverted" then
    ensureReason scope (b.optional "message") "revert" (← b.string "error")
  else throw (.assertion ("expected revert, last command " ++ withoutRevert (b.optional "error")))

def comparedPair : List (Param σ) :=
  [{ name := "a", shape := .value }, { name := "b", shape := .value }]

def truthParam : Param σ := { name := "value", shape := .bool }

def errorParam : Param σ := { name := "error", shape := .string, implicit := some lastReason }

def revertedParam : Param σ := { name := "reverted", shape := .bool, implicit := some lastReverted }

def reasonParam (name : String) : Param σ := { name, shape := .string, nullable := true }

def assertOperations : List (Operation σ) := [
  .view "Equal" comparedPair (assertPair Value.eqv " to equal ") "Fails unless a equals b.",
  .view "NotEqual" comparedPair (assertPair (fun x y => !x.eqv y) " not to equal ")
    "Fails if a equals b.",
  .view "True" [truthParam] (assertIs true "expected True, got False") "Fails unless the value is true.",
  .view "False" [truthParam] (assertIs false "expected False, got True")
    "Fails unless the value is false.",
  .view "LessThan" comparedPair (assertPair (fun x y => x.compare? y == some .lt) " < ")
    "Fails unless a < b.",
  .view "GreaterThan" comparedPair (assertPair (fun x y => x.compare? y == some .gt) " > ")
    "Fails unless a > b.",
  .view "Success" [errorParam] assertSuccess "Fails if the last command failed.",
  .view "Failure" [errorParam, reasonParam "reason"] assertFailure
    ("Fails unless the last command failed.\n" ++
      "With a reason, the failure reason must match it exactly."),
  .view "Revert" [errorParam, revertedParam, reasonParam "message"] assertRevert
    ("Fails unless the last command was reverted by the ledger.\n" ++
      "With a message, the revert reason must match it exactly.")]

def assertFamily : Family σ where
  name := "Assert"
  operations := assertOperations
  wellFormed := Family.wellFormed_of_complaint? _ rfl

end LedgerScript.Standard
