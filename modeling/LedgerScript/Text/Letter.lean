/-!
# Words without regard to ASCII letter case
-/

set_option autoImplicit false

namespace LedgerScript.Text

/-- Equality up to the case of the letters A to Z; every other character counts as written. -/
def sameWord (a b : String) : Bool := a.toLower == b.toLower

theorem sameWord_refl (a : String) : sameWord a a = true := by simp [sameWord]

theorem sameWord_symm (a b : String) : sameWord a b = sameWord b a := by
  simp only [sameWord]
  exact Bool.beq_comm

theorem sameWord_trans (a b c : String) (h : sameWord a b = true) (k : sameWord b c = true) :
    sameWord a c = true := by
  simp only [sameWord, beq_iff_eq] at *
  exact h.trans k

end LedgerScript.Text
