import LedgerScript.Proofs.Literal

/-!
# Computed numbers

The numbers that literals and checked arithmetic give, in any number of steps, lie in one range.
The range bounds the fractional digits as literals do, but it leaves room for a few more
digits before the point than literals may have. A number that uses this room has a plain text
which is no literal; every other number's plain text reads back as the number.
-/

set_option autoImplicit false

namespace LedgerScript.Number

/-- The numbers that come of literals and arithmetic. -/
inductive Computed : Number → Prop
  | parsed {token : String} {n : Number} (result : parse token = .ok n) : Computed n
  | exp {a n : Number} (operand : Computed a) (result : a.exp = .ok n) : Computed n
  | add {a b n : Number} (left : Computed a) (right : Computed b) (result : a.add b = .ok n) :
      Computed n
  | sub {a b n : Number} (left : Computed a) (right : Computed b) (result : a.sub b = .ok n) :
      Computed n
  | mul {a b n : Number} (left : Computed a) (right : Computed b) (result : a.mul b = .ok n) :
      Computed n
  | div {a b n : Number} (left : Computed a) (right : Computed b) (result : a.div b = .ok n) :
      Computed n

theorem Computed.inRange {n : Number} (h : Computed n) : inRange n.value = true := by
  cases h with
  | parsed result => exact (exists_decimal_of_parse result).2.1
  | exp _ result => exact (eq_of_checked result).2
  | add _ _ result => exact (eq_of_checked result).2
  | sub _ _ result => exact (eq_of_checked result).2
  | mul _ _ result => exact (eq_of_checked result).2
  | div _ _ result =>
    rw [Number.div] at result
    split at result
    · cases result
    · exact (eq_of_checked result).2

theorem scale_le_of_inRange {d : Decimal} (h : inRange d = true) : d.scale ≤ maxDigits := by
  rw [inRange, Decimal.fits, Bool.and_eq_true, decide_eq_true_eq] at h
  exact h.1

/-- The plain text of a number in range is a literal exactly when it is short enough before the
point. -/
theorem parse_plainText {n : Number} (h : inRange n.value = true) :
    parse n.plainText =
      if n.value.wholeDigits ≤ maxDigits then .ok ⟨n.value, .plain⟩
      else .error (.notANumber n.plainText) := by
  have written : n.plainText.toList = n.value.spelling.chars ++ Style.plain.suffix := by
    rw [toList_plainText, Decimal.chars_spelling, Style.suffix, List.append_nil]
  have hfits : n.value.spelling.Fits maxDigits ↔ n.value.wholeDigits ≤ maxDigits := by
    rw [Decimal.fits_spelling_iff]
    exact and_iff_left (scale_le_of_inRange h)
  rw [@parse_spelled _ _ .plain trivial written, Decimal.value_spelling, Style.exponent,
    Decimal.shift_zero, if_congr hfits (checked_of_inRange (n := ⟨n.value, .plain⟩) h _) rfl]

end LedgerScript.Number
