import LedgerScript.Proofs.Spelling

/-!
# The text of a decimal

The text of a decimal is one of its spellings, with as many digits before the point as its whole
part has and as many after it as its scale says. So it reads back as the same decimal exactly
when neither number is above the limit, and what has been read can be written and read again.
-/

set_option autoImplicit false

namespace LedgerScript

namespace Decimal

/-- The number of digits in front of the point. -/
def wholeDigits (d : Decimal) : Nat :=
  (Nat.toDigits 10 (d.unscaled.natAbs / pow10 d.scale)).length

theorem abs_toRat (d : Decimal) : |d.toRat| = d.unscaled.natAbs / 10 ^ d.scale := by
  rw [toRat, abs_div, abs_of_pos (by positivity : (0 : ℚ) < 10 ^ d.scale), Nat.cast_natAbs,
    Int.cast_abs]

theorem wholeDigits_le_iff (d : Decimal) {limit : Nat} (pos : 0 < limit) :
    d.wholeDigits ≤ limit ↔ |d.toRat| < 10 ^ limit := by
  rw [wholeDigits, Nat.length_toDigits_le_iff (by decide) pos,
    Nat.div_lt_iff_lt_mul (pow10_pos d.scale), abs_toRat,
    div_lt_iff₀ (by positivity : (0 : ℚ) < 10 ^ d.scale), ← cast_pow10]
  exact_mod_cast Iff.rfl

theorem Spelling.Fits.of_value {s : Spelling} {limit : Nat} (h : s.Fits limit) :
    s.value.wholeDigits ≤ limit ∧ s.value.scale ≤ limit := by
  obtain ⟨hwhole, hfraction⟩ := h
  have pos : 0 < limit := by
    have := List.length_pos_of_ne_nil s.nonempty
    rw [List.length_append] at this
    change 0 < s.whole.length + s.fraction.length at this
    omega
  refine ⟨?_, Nat.le_trans (reduce_scale_le _ _) hfraction⟩
  rw [wholeDigits_le_iff _ pos, value, toRat_of, abs_div, ← Int.cast_abs, Int.abs_eq_natAbs,
    Sign.natAbs_apply, abs_of_pos (by positivity : (0 : ℚ) < 10 ^ s.fraction.length),
    div_lt_iff₀ (by positivity : (0 : ℚ) < 10 ^ s.fraction.length), ← pow_add]
  have hlt := ofDigitChars_lt s.digits
  have hle : 10 ^ (s.whole ++ s.fraction).length ≤ 10 ^ (limit + s.fraction.length) := by
    rw [List.length_append]
    exact Nat.pow_le_pow_right (by decide) (by omega)
  exact_mod_cast Nat.lt_of_lt_of_le hlt hle

def padded (d : Decimal) : List Char :=
  let digits := Nat.toDigits 10 d.unscaled.natAbs
  List.replicate (d.scale + 1 - digits.length) '0' ++ digits

theorem isDigit_of_mem_padded {d : Decimal} {c : Char} (hc : c ∈ d.padded) : c.isDigit = true := by
  rcases List.mem_append.mp hc with hc | hc
  · rw [List.eq_of_mem_replicate hc]
    rfl
  · exact Nat.isDigit_of_mem_toDigits (by decide) (by decide) hc

theorem ofDigitChars_padded (d : Decimal) :
    Nat.ofDigitChars 10 d.padded 0 = d.unscaled.natAbs := by
  rw [padded, Nat.ofDigitChars_append, Nat.ofDigitChars_replicate_zero, Nat.mul_zero,
    Nat.ofDigitChars_ten_toDigits]

theorem scale_lt_length_padded (d : Decimal) : d.scale < d.padded.length := by
  rw [padded, List.length_append, List.length_replicate]
  omega

theorem length_padded (d : Decimal) : d.padded.length - d.scale = d.wholeDigits := by
  -- Both sides are positive and bounded by the same numbers.
  have hle (k : Nat) (hk : 0 < k) : d.padded.length - d.scale ≤ k ↔ d.wholeDigits ≤ k := by
    have hdigits := Nat.length_toDigits_le_iff (n := d.unscaled.natAbs) (b := 10) (by decide)
      (Nat.add_pos_left hk d.scale)
    have hdiv : d.unscaled.natAbs / pow10 d.scale < 10 ^ k ↔
        d.unscaled.natAbs < 10 ^ (k + d.scale) := by
      rw [Nat.div_lt_iff_lt_mul (pow10_pos d.scale), pow_add]
      rfl
    rw [wholeDigits, Nat.length_toDigits_le_iff (by decide) hk, hdiv, ← hdigits, padded,
      List.length_append, List.length_replicate]
    omega
  have hpos : 0 < d.padded.length - d.scale := Nat.sub_pos_of_lt (scale_lt_length_padded d)
  exact Nat.le_antisymm ((hle _ Nat.length_toDigits_pos).mpr (Nat.le_refl _))
    ((hle _ hpos).mp (Nat.le_refl _))

theorem magnitudeChars_eq (d : Decimal) :
    d.magnitudeChars =
      if d.scale = 0 then d.padded.take (d.padded.length - d.scale)
      else d.padded.take (d.padded.length - d.scale) ++
        '.' :: d.padded.drop (d.padded.length - d.scale) := by
  rw [magnitudeChars]
  split
  · rename_i hscale
    have hlength : 1 - (Nat.toDigits 10 d.unscaled.natAbs).length = 0 :=
      Nat.sub_eq_zero_of_le Nat.length_toDigits_pos
    rw [hscale, Nat.sub_zero, List.take_length, padded, hscale, Nat.zero_add, hlength,
      List.replicate_zero, List.nil_append]
  · rfl

def spelling (d : Decimal) : Spelling where
  sign := if d.isNegative then .minus else .bare
  whole := d.padded.take (d.padded.length - d.scale)
  fraction? := if d.scale = 0 then none else some (d.padded.drop (d.padded.length - d.scale))
  digits := by
    intro c hc
    apply isDigit_of_mem_padded (d := d)
    rcases List.mem_append.mp hc with hc | hc
    · exact List.mem_of_mem_take hc
    · split at hc
      · cases hc
      · exact List.mem_of_mem_drop hc
  nonempty := by
    intro hnil
    have hwhole := congrArg List.length (List.append_eq_nil_iff.mp hnil).1
    have hlt := scale_lt_length_padded d
    rw [List.length_take, List.length_nil] at hwhole
    omega

theorem fraction_spelling (d : Decimal) :
    d.spelling.fraction = d.padded.drop (d.padded.length - d.scale) := by
  show (if d.scale = 0 then none
    else some (d.padded.drop (d.padded.length - d.scale))).getD [] = _
  split
  · rename_i hscale
    rw [hscale, Nat.sub_zero, List.drop_length]
    rfl
  · rfl

theorem chars_spelling (d : Decimal) : d.spelling.chars = d.chars := by
  have hbody : d.spelling.body = d.magnitudeChars := by
    rw [magnitudeChars_eq, Spelling.body, spelling]
    by_cases hscale : d.scale = 0
    · simp only [if_pos hscale]
    · simp only [if_neg hscale]
  rw [Spelling.chars, hbody, chars, spelling]
  cases d.isNegative <;> rfl

theorem value_spelling (d : Decimal) : d.spelling.value = d := by
  have hdigits : d.spelling.whole ++ d.spelling.fraction = d.padded := by
    rw [fraction_spelling]
    exact List.take_append_drop _ _
  have hlength : d.spelling.fraction.length = d.scale := by
    have := scale_lt_length_padded d
    rw [fraction_spelling, List.length_drop]
    omega
  have hsigned : d.spelling.sign.apply d.unscaled.natAbs = d.unscaled := by
    rw [spelling, isNegative]
    by_cases hneg : d.unscaled < 0
    · simp only [hneg, decide_true, if_true, Sign.apply]
      omega
    · simp only [hneg, decide_false, Bool.false_eq_true, if_false, Sign.apply]
      omega
  rw [Spelling.value, hdigits, hlength, ofDigitChars_padded, hsigned, of_unscaled_scale]

theorem fits_spelling_iff (d : Decimal) (limit : Nat) :
    d.spelling.Fits limit ↔ d.wholeDigits ≤ limit ∧ d.scale ≤ limit := by
  have hlt := scale_lt_length_padded d
  have hwhole : d.spelling.whole.length = d.wholeDigits := by
    rw [← length_padded, spelling, List.length_take]
    omega
  have hfraction : d.spelling.fraction.length = d.scale := by
    rw [fraction_spelling, List.length_drop]
    omega
  rw [Spelling.Fits, hwhole, hfraction]

/-- The text of a decimal reads back as the decimal unless it is too long. -/
theorem ofChars?_chars (d : Decimal) (limit : Nat) :
    ofChars? d.chars limit =
      if d.wholeDigits ≤ limit ∧ d.scale ≤ limit then some d else none := by
  rw [← chars_spelling, Spelling.ofChars?_chars, value_spelling]
  exact if_congr (fits_spelling_iff d limit) rfl rfl

theorem le_of_ofChars? {cs : List Char} {limit : Nat} {d : Decimal}
    (h : ofChars? cs limit = some d) : d.wholeDigits ≤ limit ∧ d.scale ≤ limit := by
  obtain ⟨s, -, hfits, rfl⟩ := Spelling.exists_of_ofChars? h
  exact hfits.of_value

end Decimal

end LedgerScript
