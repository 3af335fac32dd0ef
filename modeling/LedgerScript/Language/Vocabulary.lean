import LedgerScript.Standard.Values

/-!
# Vocabularies

The families that lines and value expressions may name. Commands and values are kept apart, so one
word may name a family of each. A family declared anew takes the place of the old one.
-/

set_option autoImplicit false

namespace LedgerScript

structure Vocabulary (σ : Type) where
  commands : Roster String (Family σ)
  values : Roster String (Family σ)

namespace Vocabulary

variable {σ : Type}

def bare : Vocabulary σ := ⟨.empty, .empty⟩

def core (_ : Vocabulary σ) : Family σ := Standard.coreValues

def addCommands (v : Vocabulary σ) (f : Family σ) : Vocabulary σ :=
  { v with commands := v.commands.insert f.name f }

def addValues (v : Vocabulary σ) (f : Family σ) : Vocabulary σ :=
  { v with values := v.values.insert f.name f }

def declareCommands (v : Vocabulary σ) (name : String) (ops : List (Operation σ)) :
    Except DeclarationError (Vocabulary σ) := do
  let f ← Family.declare name ops
  if f.isCommandFamily then return v.addCommands f
  else .error ⟨name, name, "command family contains a Fetcher"⟩

def declareValues (v : Vocabulary σ) (name : String) (ops : List (Operation σ)) :
    Except DeclarationError (Vocabulary σ) := do
  let f ← Family.declare name ops
  if f.isValueFamily then return v.addValues f
  else .error ⟨name, name, "value family contains a Command"⟩

def commandFamily? (v : Vocabulary σ) (name : String) : Option (Family σ) := v.commands.get? name

def valueFamily? (v : Vocabulary σ) (name : String) : Option (Family σ) := v.values.get? name

/-- The family that answers a value expression, and the tokens it gets: those after the head word
if that names a value family, else all of them for the core values. -/
def valueRoute (v : Vocabulary σ) (e : Event) : Family σ × List Event :=
  match e.head?.bind v.valueFamily? with
  | some f => (f, e.tokens.drop 1)
  | none => (v.core, e.tokens)

end Vocabulary

end LedgerScript
