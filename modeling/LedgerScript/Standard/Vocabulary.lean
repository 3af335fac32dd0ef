import LedgerScript.Language.Vocabulary
import LedgerScript.Standard.Assert
import LedgerScript.Standard.Record

/-!
# The standard vocabulary
-/

set_option autoImplicit false

namespace LedgerScript.Standard

variable {σ : Type}

def commandFamilies : List (Family σ) :=
  [assertFamily, readFamily, printFamily, aliasFamily, settingFamily]

def vocabulary : Vocabulary σ := commandFamilies.foldl Vocabulary.addCommands .bare

end LedgerScript.Standard
