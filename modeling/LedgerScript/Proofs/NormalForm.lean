import LedgerScript.Proofs.Decimal
import LedgerScript.Quantity.Literal

/-!
# The normal form of a number

A decimal fraction can be written over every large enough power of ten, with zeros after its last
digit. The normal form leaves out all zeros that it can, and there is only one. Whatever is
built by `Decimal.of` is reduced to it, so numbers are equal just if their decimals are the same,
and a number is an integer just if no fractional digit is kept. Whether a number is in
range is then a question about the rational number alone.
-/

set_option autoImplicit false

namespace LedgerScript

namespace Decimal

/-- The integer over the power of ten is the number, and no final zero digit can be dropped. -/
structure NormalForm (q : ℚ) (unscaled : ℤ) (scale : ℕ) : Prop where
  value : q = unscaled / 10 ^ scale
  normal : scale = 0 ∨ ¬ 10 ∣ unscaled

theorem normalForm (d : Decimal) : NormalForm d.toRat d.unscaled d.scale := by
  have hnormal := d.normal
  exact ⟨rfl, by omega⟩

theorem normalForm_reduce (unscaled : ℤ) (scale : ℕ) :
    NormalForm (unscaled / 10 ^ scale) (reduce unscaled scale).1 (reduce unscaled scale).2 := by
  rw [← toRat_of]
  exact normalForm (of unscaled scale)

namespace NormalForm

variable {q : ℚ} {u v : ℤ} {s t : ℕ}

theorem exists_decimal (h : NormalForm q u s) :
    ∃ d : Decimal, d.unscaled = u ∧ d.scale = s ∧ d.toRat = q := by
  have hnormal := h.normal
  exact ⟨⟨u, s, by omega⟩, rfl, rfl, h.value.symm⟩

theorem unique (h : NormalForm q u s) (h' : NormalForm q v t) : u = v ∧ s = t := by
  obtain ⟨d, rfl, rfl, hd⟩ := h.exists_decimal
  obtain ⟨e, rfl, rfl, he⟩ := h'.exists_decimal
  have hde : d = e := toRat_injective (hd.trans he.symm)
  simp [hde]

theorem scale_eq_zero_iff (h : NormalForm q u s) : s = 0 ↔ ∃ k : ℤ, q = k := by
  constructor
  · rintro rfl
    exact ⟨u, by simpa using h.value⟩
  · rintro ⟨k, rfl⟩
    have hk : NormalForm k k 0 := ⟨by simp, .inl rfl⟩
    exact (h.unique hk).2

end NormalForm

theorem fits_iff (d : Decimal) (digits bits : Nat) :
    d.fits digits bits = true ↔ d.scale ≤ digits ∧ d.unscaled.natAbs.size ≤ bits := by
  rw [fits, Bool.and_eq_true, decide_eq_true_eq, decide_eq_true_eq, Nat.size_le]
  rfl

end Decimal

namespace Number

/-- The numbers that are kept: the normal form has a bounded scale and a bounded length in bits. -/
def Representable (q : ℚ) : Prop :=
  ∃ (unscaled : ℤ) (scale : ℕ), Decimal.NormalForm q unscaled scale ∧
    scale ≤ maxDigits ∧ unscaled.natAbs.size ≤ maxBits

theorem inRange_iff_representable (d : Decimal) : inRange d = true ↔ Representable d.toRat := by
  rw [inRange, Decimal.fits_iff]
  constructor
  · intro h
    exact ⟨d.unscaled, d.scale, d.normalForm, h⟩
  · rintro ⟨u, s, hform, h⟩
    obtain ⟨rfl, rfl⟩ := d.normalForm.unique hform
    exact h

/-- Where the condition holds the result is the number `q` in one style, and elsewhere it is one
refusal. -/
structure ExactOrRefused (condition : Prop) (result : Except NumericError Number) (q : ℚ)
    (style : Style) (refusal : NumericError) : Prop where
  exact_iff : (∃ n, result = .ok n ∧ n.value.toRat = q ∧ n.style = style) ↔ condition
  refused_iff : result = .error refusal ↔ ¬ condition

namespace ExactOrRefused

variable {condition : Prop} {result : Except NumericError Number} {q : ℚ} {style : Style}
  {refusal : NumericError}

theorem of_accepted {n : Number} (holds : condition) (accepted : result = .ok n)
    (value : n.value.toRat = q) (written : n.style = style) :
    ExactOrRefused condition result q style refusal := by
  refine ⟨iff_of_true ⟨n, accepted, value, written⟩ holds, iff_of_false ?_ (not_not.mpr holds)⟩
  simp [accepted]

theorem of_refused (fails : ¬ condition) (refused : result = .error refusal) :
    ExactOrRefused condition result q style refusal := by
  refine ⟨iff_of_false ?_ fails, iff_of_true refused fails⟩
  simp [refused]

theorem value_eq {n : Number} (h : ExactOrRefused condition result q style refusal)
    (accepted : result = .ok n) : n.value.toRat = q ∧ n.style = style := by
  by_cases holds : condition
  · obtain ⟨m, hm, hvalue⟩ := h.exact_iff.mpr holds
    cases accepted.symm.trans hm
    exact hvalue
  · cases accepted.symm.trans (h.refused_iff.mpr holds)

theorem accepted_iff (h : ExactOrRefused condition result q style refusal) :
    (∃ n, result = .ok n) ↔ condition := by
  rw [← h.exact_iff]
  constructor
  · rintro ⟨n, accepted⟩
    exact ⟨n, accepted, h.value_eq accepted⟩
  · rintro ⟨n, accepted, -⟩
    exact ⟨n, accepted⟩

theorem ne_error {other : NumericError} (h : ExactOrRefused condition result q style refusal)
    (hother : other ≠ refusal) : result ≠ .error other := by
  intro herror
  by_cases holds : condition
  · obtain ⟨n, accepted, -⟩ := h.exact_iff.mpr holds
    cases herror.symm.trans accepted
  · cases herror.symm.trans (h.refused_iff.mpr holds)
    exact hother rfl

end ExactOrRefused

theorem exactOrRefused_checked {d : Decimal} {q : ℚ} (value : d.toRat = q) (style : Style)
    (outside : Unit → NumericError) :
    ExactOrRefused (Representable q) (checked d style outside) q style (outside ()) := by
  have hrange := inRange_iff_representable d
  rw [value] at hrange
  by_cases hq : Representable q
  · have accepted : checked d style outside = .ok ⟨d, style⟩ := by
      rw [checked, if_pos (hrange.mpr hq)]
    exact .of_accepted hq accepted value rfl
  · have refused : checked d style outside = .error (outside ()) := by
      rw [checked, if_neg (mt hrange.mp hq)]
    exact .of_refused hq refused

theorem isZero_iff (n : Number) : n.isZero = true ↔ n.value.toRat = 0 := by
  rw [isZero, Decimal.isZero, beq_iff_eq, Decimal.toRat_eq_zero_iff]

theorem eqv_iff_toRat_eq (a b : Number) : a.eqv b = true ↔ a.value.toRat = b.value.toRat := by
  rw [eqv, beq_iff_eq, Decimal.toRat_injective.eq_iff]

theorem cmp_eq_compare (a b : Number) : a.cmp b = compare a.value.toRat b.value.toRat :=
  a.value.cmp_eq_compare b.value

theorem min_eq (a b : Number) :
    a.min b = if a.value.toRat ≤ b.value.toRat then a else b := by
  simp only [min, cmp_eq_compare, compare_lt_iff_lt]
  split
  · next less => rw [if_neg (not_le.mpr less)]
  · next notLess => rw [if_pos (not_lt.mp notLess)]

theorem max_eq (a b : Number) :
    a.max b = if a.value.toRat ≤ b.value.toRat then b else a := by
  simp only [max, cmp_eq_compare, compare_lt_iff_lt]
  split
  · next less => rw [if_neg (not_le.mpr less)]
  · next notLess => rw [if_pos (not_lt.mp notLess)]

theorem toRat_min (a b : Number) :
    (a.min b).value.toRat = Min.min a.value.toRat b.value.toRat := by
  rw [min_eq, min_def, apply_ite (fun n : Number => n.value.toRat)]

theorem toRat_max (a b : Number) :
    (a.max b).value.toRat = Max.max a.value.toRat b.value.toRat := by
  rw [max_eq, max_def, apply_ite (fun n : Number => n.value.toRat)]

theorem toInt?_eq_some_iff (n : Number) (k : ℤ) : n.toInt? = some k ↔ n.value.toRat = k := by
  have hform := n.value.normalForm
  by_cases hscale : n.value.scale = 0
  · have hvalue : n.value.toRat = n.value.unscaled := by simpa [hscale] using hform.value
    simp [toInt?, hscale, hvalue]
  · have hfraction : ¬ ∃ k : ℤ, n.value.toRat = k := mt hform.scale_eq_zero_iff.mpr hscale
    simp [toInt?, hscale, not_exists.mp hfraction k]

/-- Reduction gives the normal form, every number keeps the one normal form of its value, and so
equality, the order and the conversion to an integer are those of the values. -/
theorem kept_in_normal_form :
    (∀ (unscaled : ℤ) (scale : ℕ),
      Decimal.NormalForm (unscaled / 10 ^ scale) (Decimal.reduce unscaled scale).1
        (Decimal.reduce unscaled scale).2) ∧
    (∀ n : Number,
      Decimal.NormalForm n.value.toRat n.value.unscaled n.value.scale ∧
        (n.isZero = true → n.value.scale = 0) ∧
        ∀ u s, Decimal.NormalForm n.value.toRat u s → u = n.value.unscaled ∧ s = n.value.scale) ∧
    ∀ a b : Number,
      (a.eqv b = true ↔ a.value.toRat = b.value.toRat) ∧
        a.cmp b = compare a.value.toRat b.value.toRat ∧
        ∀ k : ℤ, a.toInt? = some k ↔ a.value.toRat = k := by
  refine ⟨Decimal.normalForm_reduce, fun n => ⟨n.value.normalForm, fun hzero => ?_, ?_⟩,
    fun a b => ⟨a.eqv_iff_toRat_eq b, a.cmp_eq_compare b, a.toInt?_eq_some_iff⟩⟩
  · exact n.value.normalForm.scale_eq_zero_iff.mpr ⟨0, by simpa using n.isZero_iff.mp hzero⟩
  · intro u s hform
    exact hform.unique n.value.normalForm

theorem kept_in_normal_form_notations :
    let a : Number := ⟨.of 15000 2, .percent⟩
    let b : Number := ⟨.ofInt (-150), .scaled 2⟩
    let zero : Number := ⟨.of 0 5, .plain⟩
    (parse "15000%" = .ok a ∧ parse "-1.50e2" = .ok b ∧ parse "-.00000" = .ok zero) ∧
      a.eqv (.ofInt 150) = true ∧ a.toInt? = some 150 ∧ b.cmp a = .lt ∧ zero.value.scale = 0 := by
  intro a b zero
  obtain ⟨-, kept, compared⟩ := kept_in_normal_form
  have ha : a.value.toRat = 150 := by
    rw [Decimal.toRat_of]
    norm_num
  have hb : b.value.toRat = -150 := by
    rw [Decimal.toRat_ofInt]
    norm_num
  have hint : (ofInt 150).value.toRat = 150 := Decimal.toRat_ofInt 150
  refine ⟨⟨by decide +kernel, by decide +kernel, by decide +kernel⟩,
    (compared a (ofInt 150)).1.mpr (ha.trans hint.symm), ?_, ?_, (kept zero).2.1 (by decide)⟩
  · exact ((compared a a).2.2 150).mpr (by simpa using ha)
  · rw [(compared b a).2.1, ha, hb, compare_lt_iff_lt]
    norm_num

end Number

end LedgerScript
