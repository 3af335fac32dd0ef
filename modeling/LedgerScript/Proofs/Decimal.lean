import Mathlib
import LedgerScript.Quantity.Decimal

/-!
# Decimals as rational numbers

Every decimal stands for a rational number, and decimals that stand for the same number are
equal. So an equation between decimals is one between rationals: a shift is a product with a power
of ten, and two shifts in a row are one. Likewise decimals are ordered as their numbers are.
-/

set_option autoImplicit false

namespace LedgerScript

theorem cast_pow10 (n : Nat) : ((pow10 n : Nat) : ℚ) = 10 ^ n := by
  rw [pow10, Nat.pow_eq, Nat.cast_pow, Nat.cast_ofNat]

namespace Decimal

/-- The number that a decimal stands for. -/
def toRat (d : Decimal) : ℚ := d.unscaled / 10 ^ d.scale

theorem toRat_ofInt (n : Int) : (ofInt n).toRat = n := by
  rw [toRat, ofInt, pow_zero, div_one]

theorem toRat_of (unscaled : Int) (scale : Nat) :
    (of unscaled scale).toRat = unscaled / 10 ^ scale := by
  have hscale := reduce_scale_le unscaled scale
  have hvalue := reduce_value unscaled scale
  show ((reduce unscaled scale).1 : ℚ) / 10 ^ (reduce unscaled scale).2 = _
  generalize (reduce unscaled scale).1 = u at hvalue
  generalize (reduce unscaled scale).2 = k at hscale hvalue
  have hsplit : (10 : ℚ) ^ scale = 10 ^ k * 10 ^ (scale - k) := by
    rw [← pow_add, Nat.add_sub_cancel' hscale]
  rw [← hvalue, Int.cast_mul, Int.cast_natCast, cast_pow10, hsplit]
  field_simp

theorem toRat_eq_zero_iff (d : Decimal) : d.toRat = 0 ↔ d.unscaled = 0 := by
  rw [toRat, div_eq_zero_iff, Int.cast_eq_zero]
  exact or_iff_left (pow_ne_zero _ (by norm_num))

theorem scale_le_of_toRat_eq {a b : Decimal} (h : a.toRat = b.toRat) : b.scale ≤ a.scale := by
  by_contra hlt
  obtain ⟨k, hk⟩ := Nat.exists_eq_add_of_lt (Nat.lt_of_not_le hlt)
  have hmul : (b.unscaled : ℚ) = a.unscaled * 10 ^ (k + 1) := by
    rw [toRat, toRat, hk, add_assoc, pow_add] at h
    field_simp at h
    exact h.symm
  have hdiv : b.unscaled = a.unscaled * 10 ^ (k + 1) := by exact_mod_cast hmul
  rcases b.normal with hzero | hlast
  · omega
  · apply hlast
    rw [hdiv, pow_succ, ← mul_assoc]
    exact Int.mul_emod_left _ _

theorem toRat_injective : Function.Injective toRat := by
  intro a b h
  have hscale : a.scale = b.scale :=
    Nat.le_antisymm (scale_le_of_toRat_eq h.symm) (scale_le_of_toRat_eq h)
  have hunscaled : a.unscaled = b.unscaled := by
    rw [toRat, toRat, hscale, div_left_inj' (pow_ne_zero _ (by norm_num))] at h
    exact_mod_cast h
  cases a
  cases b
  simp only at hscale hunscaled
  subst hscale hunscaled
  rfl

theorem of_unscaled_scale (d : Decimal) : of d.unscaled d.scale = d :=
  toRat_injective (toRat_of _ _)

theorem toRat_shift (d : Decimal) (k : Int) : (d.shift k).toRat = d.toRat * 10 ^ k := by
  rw [shift]
  split
  · rename_i hzero
    rw [(toRat_eq_zero_iff d).mpr hzero, zero_mul]
  split
  · rename_i hk
    have hexp : ((d.scale - k).toNat : Int) = d.scale - k := Int.toNat_of_nonneg (by omega)
    rw [toRat_of, toRat, ← zpow_natCast, hexp, ← zpow_natCast, zpow_sub₀ (by norm_num)]
    field_simp
  · rename_i hk
    have hexp : ((k - d.scale).toNat : Int) = k - d.scale := Int.toNat_of_nonneg (by omega)
    rw [toRat_ofInt, toRat, Int.cast_mul, Int.cast_natCast, cast_pow10, ← zpow_natCast, hexp,
      ← zpow_natCast, zpow_sub₀ (by norm_num)]
    field_simp

theorem shift_shift (d : Decimal) (j k : Int) : (d.shift j).shift k = d.shift (j + k) := by
  apply toRat_injective
  rw [toRat_shift, toRat_shift, toRat_shift, zpow_add₀ (by norm_num), mul_assoc]

@[simp] theorem shift_zero (d : Decimal) : d.shift 0 = d := by
  apply toRat_injective
  rw [toRat_shift, zpow_zero, mul_one]

theorem shift_neg_of_eq_shift {d m : Decimal} {k : Int} (h : d = m.shift k) : d.shift (-k) = m := by
  rw [h, shift_shift, add_neg_cancel, shift_zero]

theorem cast_rescaled {d : Decimal} {scale : Nat} (h : d.scale ≤ scale) :
    ((d.rescaled scale : Int) : ℚ) = d.toRat * 10 ^ scale := by
  have hsplit : (10 : ℚ) ^ scale = 10 ^ d.scale * 10 ^ (scale - d.scale) := by
    rw [← pow_add, Nat.add_sub_cancel' h]
  rw [rescaled, Int.cast_mul, Int.cast_natCast, cast_pow10, toRat, hsplit]
  field_simp

theorem rescaled_lt_iff {a b : Decimal} {scale : Nat} (ha : a.scale ≤ scale)
    (hb : b.scale ≤ scale) : a.rescaled scale < b.rescaled scale ↔ a.toRat < b.toRat := by
  have hpos : (0 : ℚ) < 10 ^ scale := by positivity
  rw [← Int.cast_lt (R := ℚ), cast_rescaled ha, cast_rescaled hb, mul_lt_mul_iff_left₀ hpos]

theorem cmp_eq_compare (a b : Decimal) : a.cmp b = compare a.toRat b.toRat := by
  have less := rescaled_lt_iff (Nat.le_max_left a.scale b.scale) (Nat.le_max_right a.scale b.scale)
  have more := rescaled_lt_iff (Nat.le_max_right a.scale b.scale) (Nat.le_max_left a.scale b.scale)
  rw [cmp]
  rcases lt_trichotomy a.toRat b.toRat with h | h | h
  · rw [compare_lt_iff_lt.mpr h, compare_lt_iff_lt]
    exact less.mpr h
  · rw [compare_eq_iff_eq.mpr h, compare_eq_iff_eq, toRat_injective h]
  · rw [compare_gt_iff_gt.mpr h, compare_gt_iff_gt]
    exact more.mpr h

end Decimal

end LedgerScript
