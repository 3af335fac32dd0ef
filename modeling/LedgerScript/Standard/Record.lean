import LedgerScript.Language.Family

/-!
# Records and settings

Views that write to the trace, name addresses, and change the settings.
-/

set_option autoImplicit false

namespace LedgerScript.Standard

variable {σ : Type}

def recordValue : Change σ := fun scope b => do
  return scope.world.traced ("Read => " ++ (← b.value "value").display) none

def recordMessage : Change σ := fun scope b => do
  return scope.world.traced (← b.string "message") none

def nameAddress : Change σ := fun scope b => do
  let name ← b.string "name"
  return scope.world.register [Path.ofDotted name] (.ofAddress (← b.address "address"))

def changeSettings (f : Settings → Arguments → Except Failure Settings) : Change σ :=
  fun scope b => do
    return scope.world.withSettings (← f scope.world.settings b)

def setDryRun (s : Settings) (b : Arguments) : Except Failure Settings := do
  return { s with dryRun := ← b.bool "enabled" }

def setNetwork (s : Settings) (b : Arguments) : Except Failure Settings := do
  return { s with network := ← b.string "name" }

def setDefaultFrom (s : Settings) (b : Arguments) : Except Failure Settings := do
  return { s with defaultFrom := ← b.address "account" }

def setFlag (s : Settings) (b : Arguments) : Except Failure Settings := do
  let key ← b.string "key"
  return { s with flags := s.flags.insert key (← b.string "value") }

/-- The words with a setting of their own, which no flag may have for its key. -/
def settingVerbs : List String := ["DryRun", "Network", "DefaultFrom"]

def stringParam (name : String) : Param σ := { name, shape := .string }

def addressParam (name : String) : Param σ := { name, shape := .address }

def readOperations : List (Operation σ) := [
  .view "" [{ name := "value", shape := .value, variadic := true }] recordValue
    "Evaluates a value expression and records it in the trace, e.g. `Read Bar Value`."]

def printOperations : List (Operation σ) := [
  .view "" [stringParam "message"] recordMessage "Records a message in the trace."]

def aliasOperations : List (Operation σ) := [
  .view "" [stringParam "name", addressParam "address"] nameAddress
    "Registers a name for an address, e.g. `Alias Oracle 0x…`. Dotted names nest."]

def settingOperations : List (Operation σ) := [
  .view "DryRun" [{ name := "enabled", shape := .bool }] (changeSettings setDryRun)
    "When enabled, transactions are traced but not sent.",
  .view "Network" [stringParam "name"] (changeSettings setNetwork)
    "Names the network the scenario runs against.",
  .view "DefaultFrom" [addressParam "account"] (changeSettings setDefaultFrom)
    "Sets the sender used when no `From` is given.",
  .view "" [{ name := "key", shape := .noneOf .string settingVerbs, catchall := true },
      stringParam "value"] (changeSettings setFlag)
    "Stores any other `key value` pair as a flag."]

def readFamily : Family σ := ⟨"Read", readOperations, Family.wellFormed_of_complaint? _ rfl⟩

def printFamily : Family σ := ⟨"Print", printOperations, Family.wellFormed_of_complaint? _ rfl⟩

def aliasFamily : Family σ := ⟨"Alias", aliasOperations, Family.wellFormed_of_complaint? _ rfl⟩

def settingFamily : Family σ := ⟨"Setting", settingOperations, Family.wellFormed_of_complaint? _ rfl⟩

end LedgerScript.Standard
