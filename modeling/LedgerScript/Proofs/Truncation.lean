import LedgerScript.Proofs.Exactness

/-!
# Truncated quotients

A quotient may have no last digit, so it is cut after a number of fractional digits that the scales
of its operands fix. What is left is the only number with so many digits that lies between zero and
the quotient and less than one unit of the last digit away from it. A quotient that has
no more digits is left as it is.
-/

set_option autoImplicit false

namespace LedgerScript

/-- The number `q` is `x` without the digits that follow the first `p` fractional ones. -/
structure Truncates (p : ℕ) (x q : ℚ) : Prop where
  digits : ∃ z : ℤ, q = z / 10 ^ p
  abs_le : |q| ≤ |x|
  near : |x - q| < 1 / 10 ^ p
  sign_eq : q ≠ 0 → SignType.sign q = SignType.sign x

namespace Truncates

variable {p : ℕ} {x q r : ℚ}

theorem of_digits (h : ∃ z : ℤ, x = z / 10 ^ p) : Truncates p x x where
  digits := h
  abs_le := le_rfl
  near := by
    rw [sub_self, abs_zero]
    positivity
  sign_eq _ := rfl

theorem neg (h : Truncates p x q) : Truncates p (-x) (-q) where
  digits := by
    obtain ⟨z, hz⟩ := h.digits
    exact ⟨-z, by rw [hz]; push_cast; ring⟩
  abs_le := by simpa using h.abs_le
  near := by
    have hneg : -x - -q = -(x - q) := by ring
    rw [hneg, abs_neg]
    exact h.near
  sign_eq hq := by
    rw [Left.sign_neg, Left.sign_neg, h.sign_eq (neg_ne_zero.mp hq)]

theorem nonneg (h : Truncates p x q) (hx : 0 ≤ x) : 0 ≤ q := by
  by_cases hq : q = 0
  · exact hq.ge
  · rw [← sign_nonneg_iff, h.sign_eq hq, sign_nonneg_iff]
    exact hx

theorem eq_floor (h : Truncates p x q) (hx : 0 ≤ x) : q = ⌊x * 10 ^ p⌋ / 10 ^ p := by
  have hpos : (0 : ℚ) < 10 ^ p := by positivity
  have hbelow : q ≤ x := by
    have habs := h.abs_le
    rwa [abs_of_nonneg hx, abs_of_nonneg (h.nonneg hx)] at habs
  have hnear : x - q < 1 / 10 ^ p := (le_abs_self _).trans_lt h.near
  obtain ⟨z, rfl⟩ := h.digits
  have hfloor : ⌊x * 10 ^ p⌋ = z := by
    rw [Int.floor_eq_iff]
    constructor
    · rwa [div_le_iff₀ hpos] at hbelow
    · rw [lt_div_iff₀ hpos, sub_mul, div_mul_cancel₀ _ hpos.ne'] at hnear
      linarith
  rw [hfloor]

theorem unique (h : Truncates p x q) (h' : Truncates p x r) : q = r := by
  -- a number below zero is cut as its negative is
  rcases le_total 0 x with hx | hx
  · rw [h.eq_floor hx, h'.eq_floor hx]
  · have hneg : 0 ≤ -x := neg_nonneg.mpr hx
    rw [← neg_inj, h.neg.eq_floor hneg, h'.neg.eq_floor hneg]

theorem eq_self (h : Truncates p x q) (hx : ∃ z : ℤ, x = z / 10 ^ p) : q = x :=
  h.unique (of_digits hx)

theorem of_integer {z : ℤ} (h : Truncates 0 (x * 10 ^ p) z) : Truncates p x (z / 10 ^ p) := by
  have hpos : (0 : ℚ) < 10 ^ p := by positivity
  have hx : x = x * 10 ^ p / 10 ^ p := by field_simp
  refine ⟨⟨z, rfl⟩, ?_, ?_, fun hz => ?_⟩
  · rw [hx, abs_div, abs_div]
    exact div_le_div_of_nonneg_right h.abs_le (abs_nonneg _)
  · have hnear : |x * 10 ^ p - z| < 1 := by simpa using h.near
    rw [hx, ← sub_div, abs_div, abs_of_pos hpos]
    gcongr
  · have hsign := h.sign_eq (div_ne_zero_iff.mp hz).1
    rw [hx, div_eq_mul_inv, div_eq_mul_inv, sign_mul, sign_mul, hsign]

end Truncates

theorem sign_eq_of_near {x : ℚ} {z : ℤ} (hz : (z : ℚ) ≠ 0) (near : |x - z| < 1) :
    SignType.sign (z : ℚ) = SignType.sign x := by
  obtain ⟨hlower, hupper⟩ := abs_lt.mp near
  rcases lt_or_gt_of_ne (Int.cast_ne_zero.mp hz) with hneg | hpos
  · have hle : (z : ℚ) ≤ -1 := by exact_mod_cast Int.le_sub_one_of_lt hneg
    rw [sign_neg (show (z : ℚ) < 0 by linarith), sign_neg (show x < 0 by linarith)]
  · have hle : (1 : ℚ) ≤ z := by exact_mod_cast hpos
    rw [sign_pos (show (0 : ℚ) < z by linarith), sign_pos (show 0 < x by linarith)]

theorem truncates_tdiv (u v : ℤ) (hv : v ≠ 0) : Truncates 0 (u / v) (u.tdiv v : ℤ) := by
  have hcast : (0 : ℚ) < |(v : ℚ)| := abs_pos.mpr (Int.cast_ne_zero.mpr hv)
  have hle : |u.tdiv v| * |v| ≤ |u| := by
    rw [Int.abs_eq_natAbs, Int.abs_eq_natAbs, Int.abs_eq_natAbs, Int.natAbs_tdiv]
    exact_mod_cast Nat.div_mul_le_self u.natAbs v.natAbs
  have hlt : |u.tmod v| < |v| := by
    rw [Int.abs_eq_natAbs, Int.abs_eq_natAbs, Int.natAbs_tmod]
    exact_mod_cast Nat.mod_lt u.natAbs (Int.natAbs_pos.mpr hv)
  have hrest : (u / v : ℚ) - u.tdiv v = u.tmod v / v := by
    have hdiv : (v * u.tdiv v + u.tmod v : ℚ) = u := by exact_mod_cast Int.mul_tdiv_add_tmod u v
    have hne : (v : ℚ) ≠ 0 := abs_pos.mp hcast
    rw [← hdiv]
    field_simp
    ring
  have near : |(u / v : ℚ) - u.tdiv v| < 1 := by
    rw [hrest, abs_div, div_lt_one hcast]
    exact_mod_cast hlt
  refine ⟨⟨u.tdiv v, by simp⟩, ?_, by simpa using near, fun hz => sign_eq_of_near hz near⟩
  rw [abs_div, le_div_iff₀ hcast]
  exact_mod_cast hle

namespace Decimal

theorem scale_le_quotient_scale (a b : Decimal) (extra : ℕ) :
    a.scale ≤ max a.scale b.scale + extra + b.scale := by omega

/-- The numerator is scaled so that the integer quotient counts units of the last digit. -/
theorem truncates_quotient (a : Decimal) {b : Decimal} (hb : b.toRat ≠ 0) (extra : ℕ) :
    Truncates (max a.scale b.scale + extra) (a.toRat / b.toRat) (a.quotient b extra).toRat := by
  have hunscaled : b.unscaled ≠ 0 := mt b.toRat_eq_zero_iff.mpr hb
  have hle := scale_le_quotient_scale a b extra
  rw [quotient, toRat_of]
  -- of the scale of the result only this is needed, that no power of ten is negative
  generalize max a.scale b.scale + extra = p at hle ⊢
  apply Truncates.of_integer
  have hvalue : a.toRat / b.toRat * 10 ^ p =
      ((a.unscaled * pow10 (p + b.scale - a.scale) : ℤ) : ℚ) / b.unscaled := by
    have hsplit : (10 : ℚ) ^ p * 10 ^ b.scale = 10 ^ a.scale * 10 ^ (p + b.scale - a.scale) := by
      rw [← pow_add, ← pow_add, Nat.add_sub_cancel' hle]
    have hcast : (b.unscaled : ℚ) ≠ 0 := Int.cast_ne_zero.mpr hunscaled
    rw [toRat, toRat, Int.cast_mul, Int.cast_natCast, cast_pow10]
    field_simp
    linear_combination (a.unscaled : ℚ) * hsplit
  rw [hvalue]
  exact truncates_tdiv _ _ hunscaled

end Decimal

namespace Number

theorem exactOrRefused_div (a : Number) {b : Number} (hb : b.value.toRat ≠ 0) :
    ExactOrRefused (Representable (a.value.quotient b.value 36).toRat) (a.div b)
      (a.value.quotient b.value 36).toRat .plain
      (.resultOutOfRange (a.render ++ " / " ++ b.render)) := by
  rw [div, if_neg (mt b.isZero_iff.mp hb)]
  exact exactOrRefused_checked rfl _ _

theorem div_eq_divisionByZero_iff (a b : Number) :
    a.div b = .error .divisionByZero ↔ b.value.toRat = 0 := by
  constructor
  · intro hdiv
    by_contra hb
    exact (a.exactOrRefused_div hb).ne_error (by simp) hdiv
  · intro hb
    rw [div, if_pos (b.isZero_iff.mpr hb)]

/-- Division is refused by zero and only there. Otherwise the quotient is cut after 36 fractional
digits more than its operands have, to the only number that truncation toward zero can give, and
this is the result if it is representable. The scale that is taken off the scales of the result and
the divisor is never more than they are together, and these stay far below 32 bits. -/
theorem quotient_truncated {a b : Number} (left : a.Computed) (right : b.Computed) :
    let x := a.value.toRat
    let y := b.value.toRat
    let p := Nat.max a.value.scale b.value.scale + 36
    (a.div b = .error .divisionByZero ↔ y = 0) ∧
      (y ≠ 0 →
        (∃! q, Truncates p (x / y) q) ∧
        ∀ q, Truncates p (x / y) q →
          ((∃ z : ℤ, x / y = z / 10 ^ p) → q = x / y) ∧
          ExactOrRefused (Representable q) (a.div b) q .plain
            (.resultOutOfRange (a.render ++ " / " ++ b.render))) ∧
      a.value.scale ≤ p + b.value.scale ∧ p + b.value.scale < 2 ^ 32 := by
  intro x y p
  have ha : a.value.scale ≤ 8192 := scale_le_of_inRange left.inRange
  have hb : b.value.scale ≤ 8192 := scale_le_of_inRange right.inRange
  have hp : p = Max.max a.value.scale b.value.scale + 36 := rfl
  refine ⟨a.div_eq_divisionByZero_iff b, fun hy => ?_, by omega, by omega⟩
  have cut : Truncates p (x / y) (a.value.quotient b.value 36).toRat :=
    a.value.truncates_quotient hy 36
  refine ⟨⟨_, cut, fun q hq => hq.unique cut⟩, fun q hq => ⟨hq.eq_self, ?_⟩⟩
  rw [hq.unique cut]
  exact a.exactOrRefused_div hy

theorem quotient_truncated_two_thirds :
    let a : Number := .ofInt (-2)
    let b : Number := .ofInt 3
    let q : ℚ := -0.666666666666666666666666666666666666
    a.Computed ∧ b.Computed ∧ b.value.toRat ≠ 0 ∧
      Truncates 36 (a.value.toRat / b.value.toRat) q ∧
      (∃ n, a.div b = .ok n ∧ n.value.toRat = q ∧ n.style = .plain) := by
  intro a b q
  have two : parse "-2" = .ok a := by decide +kernel
  have three : parse "3" = .ok b := by decide +kernel
  have ha : a.value.toRat = -2 := Decimal.toRat_ofInt (-2)
  have hb : b.value.toRat = 3 := Decimal.toRat_ofInt 3
  have hq : (Decimal.of (-666666666666666666666666666666666666) 36).toRat = q := by
    rw [Decimal.toRat_of]
    norm_num [q]
  have cut : Truncates 36 (a.value.toRat / b.value.toRat) q := by
    rw [ha, hb]
    refine ⟨⟨-666666666666666666666666666666666666, by norm_num [q]⟩, ?_, ?_, fun _ => ?_⟩
    · norm_num [q, abs_div]
    · norm_num [q, abs_div]
    · rw [sign_neg (by norm_num [q]), sign_neg (by norm_num)]
  have kept : Representable q := by
    rw [← hq, ← inRange_iff_representable]
    decide +kernel
  have divisor : b.value.toRat ≠ 0 := by
    rw [hb]
    norm_num
  obtain ⟨-, quotient, -⟩ := quotient_truncated (.parsed two) (.parsed three)
  exact ⟨.parsed two, .parsed three, divisor, cut,
    ((quotient divisor).2 q cut).2.exact_iff.mpr kept⟩

end Number

end LedgerScript
