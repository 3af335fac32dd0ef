import LedgerScript.Language.Failure
import LedgerScript.World.Basic

/-!
# Names that must be known

The look-ups of an operation, which fails where a name or an address is unknown.
-/

set_option autoImplicit false

namespace LedgerScript.World

def known {α : Type} (name : String) : Option α → Except Failure α
  | some a => .ok a
  | none => .error (.unknownAlias name)

def lookup (w : World) (name : String) : Except Failure RegistryEntry :=
  known name (w.lookup? name)

def handleAt (w : World) (address : String) : Except Failure Handle :=
  known address (w.handleAt? address)

def sender (w : World) : Except Failure String :=
  known w.settings.defaultFrom w.sender?

end LedgerScript.World
