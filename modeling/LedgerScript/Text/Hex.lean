/-!
# Hexadecimal digits
-/

set_option autoImplicit false

namespace LedgerScript.Text

def hexValue? (c : Char) : Option Nat :=
  if c.isDigit then some (c.toNat - '0'.toNat)
  else if 'a' ≤ c ∧ c ≤ 'f' then some (c.toNat - 'a'.toNat + 10)
  else if 'A' ≤ c ∧ c ≤ 'F' then some (c.toNat - 'A'.toNat + 10)
  else none

def isHexDigit (c : Char) : Bool := (hexValue? c).isSome

def hexNumber? (digits : List Char) : Option Nat :=
  digits.foldlM (fun n c => (hexValue? c).map (16 * n + ·)) 0

/-- The number that the first `count` characters write, and the rest of the text. -/
def takeHex? (count : Nat) (cs : List Char) : Option (Nat × List Char) :=
  if cs.length < count then none else (hexNumber? (cs.take count)).map (·, cs.drop count)

end LedgerScript.Text
