import LedgerScript.Proofs.Computed
import LedgerScript.Proofs.NormalForm

/-!
# Exact results

Sums, differences, products and scalings are worked out on integers over powers of ten. Read as
rational numbers they are the sums, differences and products that they are named for, so a checked
operation gives exactly this number if it is representable, and refuses it otherwise. Hence two
ways to the same number, such as scaling and multiplying by a power of ten, succeed together.
-/

set_option autoImplicit false

namespace LedgerScript

namespace Decimal

theorem toRat_add (a b : Decimal) : (a.add b).toRat = a.toRat + b.toRat := by
  have hleft := cast_rescaled (Nat.le_max_left a.scale b.scale)
  have hright := cast_rescaled (Nat.le_max_right a.scale b.scale)
  rw [add, toRat_of, Int.cast_add, hleft, hright]
  field_simp

theorem toRat_sub (a b : Decimal) : (a.sub b).toRat = a.toRat - b.toRat := by
  have hleft := cast_rescaled (Nat.le_max_left a.scale b.scale)
  have hright := cast_rescaled (Nat.le_max_right a.scale b.scale)
  rw [sub, toRat_of, Int.cast_sub, hleft, hright]
  field_simp

theorem toRat_mul (a b : Decimal) : (a.mul b).toRat = a.toRat * b.toRat := by
  rw [mul, toRat_of, Int.cast_mul, pow_add, toRat, toRat, div_mul_div_comm]

end Decimal

namespace Number

theorem exactOrRefused_exp (a : Number) :
    ExactOrRefused (Representable (a.value.toRat * 10 ^ 18)) a.exp (a.value.toRat * 10 ^ 18)
      (.scaled 18) (.resultOutOfRange (a.render ++ " × 10^18")) := by
  have hvalue : (a.value.shift 18).toRat = a.value.toRat * 10 ^ 18 := by
    rw [Decimal.toRat_shift, zpow_ofNat]
  have hmessage : a.render ++ " × 10^18" = a.render ++ " × 10^" ++ toString (18 : ℤ) := by
    rw [String.append_assoc]
    rfl
  rw [hmessage]
  exact exactOrRefused_checked hvalue _ _

theorem exactOrRefused_mul (a b : Number) :
    ExactOrRefused (Representable (a.value.toRat * b.value.toRat)) (a.mul b)
      (a.value.toRat * b.value.toRat) .plain
      (.resultOutOfRange (a.render ++ " * " ++ b.render)) :=
  exactOrRefused_checked (a.value.toRat_mul b.value) _ _

theorem exp_agrees_with_mul {a t : Number} (ht : t.value.toRat = 10 ^ 18) :
    ((∃ n, a.exp = .ok n) ↔ ∃ m, a.mul t = .ok m) ∧
      ∀ n m, a.exp = .ok n → a.mul t = .ok m → n.eqv m = true := by
  have scaled := exactOrRefused_exp a
  have multiplied := exactOrRefused_mul a t
  rw [ht] at multiplied
  refine ⟨scaled.accepted_iff.trans multiplied.accepted_iff.symm, fun n m hn hm => ?_⟩
  rw [eqv_iff_toRat_eq, (scaled.value_eq hn).1, (multiplied.value_eq hm).1]

/-- Sums, differences, products and scalings of computed numbers are exact, or they are refused
because they are not representable. Neither operand has a scale above the common one, where both
are exact integers, and the scale of a product stays far below 32 bits. -/
theorem exact_or_out_of_range {a b : Number} (left : a.Computed) (right : b.Computed) :
    let x := a.value.toRat
    let y := b.value.toRat
    let common := Nat.max a.value.scale b.value.scale
    ExactOrRefused (Representable (x + y)) (a.add b) (x + y) .plain
        (.resultOutOfRange (a.render ++ " + " ++ b.render)) ∧
      ExactOrRefused (Representable (x - y)) (a.sub b) (x - y) .plain
        (.resultOutOfRange (a.render ++ " - " ++ b.render)) ∧
      ExactOrRefused (Representable (x * y)) (a.mul b) (x * y) .plain
        (.resultOutOfRange (a.render ++ " * " ++ b.render)) ∧
      ExactOrRefused (Representable (x * 10 ^ 18)) a.exp (x * 10 ^ 18) (.scaled 18)
        (.resultOutOfRange (a.render ++ " × 10^18")) ∧
      (∀ t : Number, t.value.toRat = 10 ^ 18 →
        ((∃ n, a.exp = .ok n) ↔ ∃ m, a.mul t = .ok m) ∧
          ∀ n m, a.exp = .ok n → a.mul t = .ok m → n.eqv m = true) ∧
      (a.value.scale ≤ common ∧ (a.value.rescaled common : ℚ) = x * 10 ^ common) ∧
      (b.value.scale ≤ common ∧ (b.value.rescaled common : ℚ) = y * 10 ^ common) ∧
      a.value.scale + b.value.scale < 2 ^ 32 := by
  intro x y common
  have ha : a.value.scale ≤ common := Nat.le_max_left _ _
  have hb : b.value.scale ≤ common := Nat.le_max_right _ _
  have hsmall : a.value.scale ≤ 8192 ∧ b.value.scale ≤ 8192 :=
    ⟨scale_le_of_inRange left.inRange, scale_le_of_inRange right.inRange⟩
  refine ⟨exactOrRefused_checked (a.value.toRat_add b.value) _ _,
    exactOrRefused_checked (a.value.toRat_sub b.value) _ _, exactOrRefused_mul a b,
    exactOrRefused_exp a, fun t ht => exp_agrees_with_mul ht,
    ⟨ha, Decimal.cast_rescaled ha⟩, ⟨hb, Decimal.cast_rescaled hb⟩, ?_⟩
  omega

theorem exact_or_out_of_range_large :
    let b : Number := ⟨.ofInt (pow10 4096), .scaled 4096⟩
    let a : Number := ⟨.ofInt (pow10 8192), .plain⟩
    a.Computed ∧ b.Computed ∧
      (∃ n, a.sub b = .ok n ∧ n.value.toRat = a.value.toRat - b.value.toRat ∧ n.style = .plain) ∧
      a.mul b = .error (.resultOutOfRange (a.render ++ " * " ++ b.render)) := by
  intro b a
  have parsed : parse "1e4096" = .ok b := by decide +kernel
  have squared : b.mul b = .ok a := by decide +kernel
  have right : b.Computed := .parsed parsed
  have left : a.Computed := .mul right right squared
  have inside : Representable (a.value.toRat - b.value.toRat) := by
    rw [← Decimal.toRat_sub, ← inRange_iff_representable]
    decide +kernel
  have outside : ¬ Representable (a.value.toRat * b.value.toRat) := by
    rw [← Decimal.toRat_mul, ← inRange_iff_representable]
    decide +kernel
  obtain ⟨-, difference, product, -⟩ := exact_or_out_of_range left right
  exact ⟨left, right, difference.exact_iff.mpr inside, product.refused_iff.mpr outside⟩

end Number

end LedgerScript
