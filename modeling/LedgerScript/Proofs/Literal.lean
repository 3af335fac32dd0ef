import LedgerScript.Proofs.DecimalText
import LedgerScript.Proofs.Grammar

/-!
# Literals read back

In every style a literal is a spelled decimal and a suffix, and its value is that decimal shifted
by a power of ten which the style fixes. A number that has been parsed is written by shifting
back, so that the decimal which it was read from stands before the suffix again.
-/

set_option autoImplicit false

namespace LedgerScript

theorem toList_toString_int (k : Int) : (toString k).toList = (Decimal.ofInt k).chars := by
  rw [Int.toString_eq_repr, Int.repr_eq_if, Decimal.chars, Decimal.isNegative,
    Decimal.magnitudeChars, Decimal.ofInt]
  by_cases hk : 0 ≤ k
  · have hnat : k.toNat = k.natAbs := by omega
    rw [if_pos hk, Nat.toList_repr, hnat, decide_eq_false (Int.not_lt.mpr hk)]
    rfl
  · have hnat : (-k).toNat = k.natAbs := by omega
    rw [if_neg hk, String.toList_append, Nat.toList_repr, hnat,
      decide_eq_true (Int.not_le.mp hk)]
    rfl

namespace Number

namespace Style

def suffix : Style → List Char
  | plain => []
  | scaled k => 'e' :: (toString k).toList
  | percent => ['%']

end Style

theorem toList_render (n : Number) :
    n.render.toList = (n.value.shift (-n.style.exponent)).chars ++ n.style.suffix := by
  obtain ⟨d, style⟩ := n
  cases style with
  | plain =>
    rw [render, Decimal.text, String.toList_ofList]
    simp [Style.exponent, Style.suffix]
  | scaled k =>
    rw [render, String.toList_append, String.toList_append, Decimal.text, String.toList_ofList]
    simp [Style.exponent, Style.suffix]
  | percent =>
    rw [render, String.toList_append, Decimal.text, String.toList_ofList]
    rfl

theorem toList_plainText (n : Number) : n.plainText.toList = n.value.chars := by
  rw [plainText, Decimal.text, String.toList_ofList]

def Exponent.ofInt (k : Int) : Exponent where
  sign := if k < 0 then .minus else .bare
  digits := Nat.toDigits 10 k.natAbs
  isDigit _ hc := Nat.isDigit_of_mem_toDigits (by decide) (by decide) hc
  nonempty := Nat.toDigits_ne_nil

theorem Exponent.chars_ofInt (k : Int) : (ofInt k).chars = (toString k).toList := by
  rw [toList_toString_int, Decimal.chars, Decimal.isNegative, chars]
  by_cases hk : k < 0 <;> simp [ofInt, hk, Decimal.ofInt, Decimal.magnitudeChars, Decimal.Sign.chars]

theorem Exponent.value_ofInt (k : Int) : (ofInt k).value = k := by
  rw [value, ofInt, Nat.ofDigitChars_ten_toDigits]
  by_cases hk : k < 0
  · rw [if_pos hk, Decimal.Sign.apply]
    omega
  · rw [if_neg hk, Decimal.Sign.apply]
    omega

namespace Style

/-- The ending that a number in this style is written with. -/
def ending : Style → Ending
  | plain => .plain
  | scaled k => .scaled false (some (.ofInt k))
  | percent => .percent

theorem chars_ending (style : Style) : style.ending.chars = style.suffix := by
  cases style with
  | plain => rfl
  | scaled k => exact congrArg ('e' :: ·) (Exponent.chars_ofInt k)
  | percent => rfl

theorem style_ending (style : Style) : style.ending.style = style := by
  cases style with
  | plain => rfl
  | scaled k => exact congrArg scaled (Exponent.value_ofInt k)
  | percent => rfl

theorem fits_ending {style : Style} (h : style.Admissible) : style.ending.Fits := by
  cases style with
  | plain => trivial
  | scaled k =>
    have hsmall : k.natAbs ≤ 4096 := h
    show -2 ^ 31 ≤ (Exponent.ofInt k).value ∧ (Exponent.ofInt k).value < 2 ^ 31
    rw [Exponent.value_ofInt]
    omega
  | percent => trivial

end Style

/-- A spelled decimal and a suffix are read in the style of the suffix. -/
theorem parse_spelled {token : String} {s : Decimal.Spelling} {style : Style}
    (admissible : style.Admissible) (written : token.toList = s.chars ++ style.suffix) :
    parse token =
      if s.Fits maxDigits then
        checked (s.value.shift style.exponent) style (fun _ => .literalOutOfRange token)
      else .error (.notANumber token) := by
  let l : Literal := ⟨s, style.ending⟩
  have hwritten : l.chars = token.toList := by
    rw [written, ← style.chars_ending]
    rfl
  have hstyle : l.style = style := style.style_ending
  have hfits : l.Fits ↔ s.Fits maxDigits := and_iff_left (Style.fits_ending admissible)
  rw [parse_literal hwritten, if_congr hfits rfl rfl, hstyle, if_pos admissible]

theorem eq_of_checked {d : Decimal} {style : Style} {outside : Unit → NumericError} {n : Number}
    (h : checked d style outside = .ok n) : n = ⟨d, style⟩ ∧ inRange n.value = true := by
  rw [checked] at h
  split at h
  · rename_i hrange
    cases h
    exact ⟨rfl, hrange⟩
  · cases h

theorem checked_of_inRange {n : Number} (h : inRange n.value = true)
    (outside : Unit → NumericError) : checked n.value n.style outside = .ok n := by
  rw [checked, if_pos h]

theorem exists_decimal_of_parse {token : String} {n : Number} (h : parse token = .ok n) :
    n.style.Admissible ∧ inRange n.value = true ∧
      ∃ cs m, cs <+: token.toList ∧ decimal? cs = some m ∧ n.value = m.shift n.style.exponent := by
  have hvalid : parse token ≠ .error (.notANumber token) := by simp [h]
  obtain ⟨l, written, hfits⟩ := exists_literal hvalid
  have hread : decimal? l.decimal.chars = some l.decimal.value := by
    rw [decimal?, Decimal.Spelling.ofChars?_chars, if_pos hfits.1]
  rw [parse_literal written, if_pos hfits] at h
  split at h
  · rename_i hsmall
    obtain ⟨rfl, hrange⟩ := eq_of_checked h
    exact ⟨hsmall, hrange, l.decimal.chars, l.decimal.value, ⟨_, written⟩, hread, rfl⟩
  · cases h

theorem exists_digit_of_parse {token : String} {n : Number} (h : parse token = .ok n) :
    ∃ c ∈ token.toList, c.isDigit = true := by
  obtain ⟨-, -, cs, m, hprefix, hm, -⟩ := exists_decimal_of_parse h
  obtain ⟨s, rfl, -, -⟩ := Decimal.Spelling.exists_of_ofChars? hm
  obtain ⟨c, hc, hdigit⟩ := s.exists_digit
  exact ⟨c, hprefix.subset hc, hdigit⟩

/-- What a number is written as reads back as the number, in the same style. -/
theorem parse_render {token : String} {n : Number} (h : parse token = .ok n) :
    parse n.render = .ok n := by
  obtain ⟨admissible, hrange, cs, m, -, hm, hvalue⟩ := exists_decimal_of_parse h
  have hfits : m.spelling.Fits maxDigits :=
    (Decimal.fits_spelling_iff m maxDigits).mpr (Decimal.le_of_ofChars? hm)
  have hback : n.value.shift (-n.style.exponent) = m := Decimal.shift_neg_of_eq_shift hvalue
  have written : n.render.toList = m.spelling.chars ++ n.style.suffix := by
    rw [toList_render, hback, Decimal.chars_spelling]
  rw [parse_spelled admissible written, if_pos hfits, Decimal.value_spelling, ← hvalue]
  exact checked_of_inRange hrange _

theorem parse_render_short_exponent :
    let n : Number := ⟨.ofInt (-15 * pow10 17), .scaled 18⟩
    parse "-01.50E" = .ok n ∧ n.render = "-1.5e18" ∧ parse n.render = .ok n := by
  intro n
  have parsed : parse "-01.50E" = .ok n := by decide +kernel
  exact ⟨parsed, by decide +kernel, parse_render parsed⟩

end Number

end LedgerScript
