/-!
# Readers

A reader takes what it reads from the front of a text and gives the rest.
-/

set_option autoImplicit false

namespace LedgerScript.Text

abbrev Reader (α : Type) := List Char → Option (α × List Char)

def after? (c : Char) : List Char → Option (List Char)
  | [] => none
  | d :: rest => if d = c then some rest else none

/-- Reads a number of exactly `count` decimal digits. -/
def fixedNumber (count : Nat) : Reader Nat := fun cs =>
  let ds := cs.take count
  if ds.length = count && ds.all Char.isDigit then some (Nat.ofDigitChars 10 ds 0, cs.drop count)
  else none

end LedgerScript.Text
