import LedgerScript.Proofs.NormalForm
import LedgerScript.Proofs.Spelling

/-!
# The grammar of numeric literals

A literal is a spelled decimal and an ending: nothing, a percent sign, or the letter `e` in either
case with an exponent after it or without one. No character of a decimal can begin an ending, so the
ending that is found first is the one that was written. A text is refused as no number just if
no literal is written so, and a literal denotes its value exactly or is out of range.
-/

set_option autoImplicit false

namespace LedgerScript

namespace Decimal.Spelling

def toRat (s : Spelling) : ℚ :=
  s.sign.apply (Nat.ofDigitChars 10 (s.whole ++ s.fraction) 0) / 10 ^ s.fraction.length

theorem toRat_value (s : Spelling) : s.value.toRat = s.toRat := toRat_of _ _

end Decimal.Spelling

namespace Number

namespace Style

def exponent : Style → Int
  | plain => 0
  | scaled k => k
  | percent => -2

def Admissible : Style → Prop
  | scaled k => k.natAbs ≤ maxExponent
  | _ => True

instance (style : Style) : Decidable style.Admissible :=
  match style with
  | plain => inferInstanceAs (Decidable True)
  | scaled k => inferInstanceAs (Decidable (k.natAbs ≤ maxExponent))
  | percent => inferInstanceAs (Decidable True)

end Style

structure Exponent where
  sign : Decimal.Sign
  digits : List Char
  isDigit : ∀ c ∈ digits, c.isDigit = true
  nonempty : digits ≠ []

namespace Exponent

def chars (e : Exponent) : List Char := e.sign.chars ++ e.digits

def value (e : Exponent) : Int := e.sign.apply (Nat.ofDigitChars 10 e.digits 0)

/-- Exponents are signed integers of 32 bits. -/
def Fits (e : Exponent) : Prop := -2 ^ 31 ≤ e.value ∧ e.value < 2 ^ 31

instance (e : Exponent) : Decidable e.Fits := inferInstanceAs (Decidable (_ ∧ _))

theorem mem_chars {e : Exponent} {c : Char} (hc : c ∈ e.chars) :
    c = '+' ∨ c = '-' ∨ c.isDigit = true := by
  rw [chars, List.mem_append] at hc
  rcases hc with hc | hc
  · exact (Decimal.Sign.mem_chars hc).imp_right .inl
  · exact .inr (.inr (e.isDigit c hc))

end Exponent

def signed? (negative : Bool) (digits : List Char) : Option Int :=
  if digits.isEmpty || !digits.all Char.isDigit then none
  else
    let n : Int := Nat.ofDigitChars 10 digits 0
    let k := if negative then -n else n
    if -(pow2 31 : Int) ≤ k ∧ k < pow2 31 then some k else none

theorem exponent?_eq {cs : List Char} (hne : cs ≠ []) :
    exponent? cs =
      signed? (cs.head? == some '-')
        (if cs.head? == some '-' || cs.head? == some '+' then cs.tail else cs) := by
  rw [exponent?, if_neg (mt List.isEmpty_iff.mp hne)]
  rfl

theorem signed?_digits {negative : Bool} {digits : List Char} {k : Int}
    (hdigits : ∀ c ∈ digits, c.isDigit = true) (hne : digits ≠ [])
    (hk : (if negative then -(Nat.ofDigitChars 10 digits 0 : Int)
      else Nat.ofDigitChars 10 digits 0) = k) :
    signed? negative digits = if -2 ^ 31 ≤ k ∧ k < 2 ^ 31 then some k else none := by
  have hall : digits.all Char.isDigit = true := List.all_eq_true.mpr hdigits
  have hlimit : ((pow2 31 : Nat) : Int) = 2 ^ 31 := by decide
  subst hk
  simp [signed?, hall, hne, hlimit]

theorem digits_of_signed? {negative : Bool} {digits : List Char} {k : Int}
    (h : signed? negative digits = some k) :
    (∀ c ∈ digits, c.isDigit = true) ∧ digits ≠ [] := by
  rw [signed?] at h
  split at h
  · cases h
  · rename_i hdigits
    have hboth : digits ≠ [] ∧ ∀ c ∈ digits, c.isDigit = true := by simpa using hdigits
    exact hboth.symm

theorem exponent?_chars (e : Exponent) :
    exponent? e.chars = if e.Fits then some e.value else none := by
  obtain ⟨sign, digits, hdigits, hne⟩ := e
  have hhead (c : Char) (hc : c.isDigit = false) : (digits.head? == some c) = false := by
    rw [beq_eq_false_iff_ne]
    intro hfirst
    have hdigit := hdigits c (List.mem_of_mem_head? hfirst)
    rw [hc] at hdigit
    cases hdigit
  cases sign with
  | bare =>
    show exponent? digits = _
    rw [exponent?_eq hne, hhead '-' rfl, hhead '+' rfl]
    exact signed?_digits hdigits hne rfl
  | plus =>
    show exponent? ('+' :: digits) = _
    rw [exponent?_eq (List.cons_ne_nil _ _)]
    exact signed?_digits hdigits hne rfl
  | minus =>
    show exponent? ('-' :: digits) = _
    rw [exponent?_eq (List.cons_ne_nil _ _)]
    exact signed?_digits hdigits hne rfl

theorem exists_of_exponent? {cs : List Char} {k : Int} (h : exponent? cs = some k) :
    cs = [] ∧ k = 18 ∨ ∃ e : Exponent, e.chars = cs ∧ e.Fits ∧ e.value = k := by
  by_cases hne : cs = []
  · subst hne
    exact .inl ⟨rfl, (Option.some.inj h).symm⟩
  have hchars : ∃ e : Exponent, e.chars = cs := by
    rw [exponent?_eq hne] at h
    obtain ⟨hdigits, hsome⟩ := digits_of_signed? h
    obtain ⟨c, rest, rfl⟩ := List.exists_cons_of_ne_nil hne
    by_cases hminus : c = '-'
    · subst hminus
      exact ⟨⟨.minus, rest, hdigits, hsome⟩, rfl⟩
    by_cases hplus : c = '+'
    · subst hplus
      exact ⟨⟨.plus, rest, hdigits, hsome⟩, rfl⟩
    simp only [List.head?_cons, Option.some_beq_some, beq_false_of_ne hminus,
      beq_false_of_ne hplus, Bool.or_self, Bool.false_eq_true, if_false] at hdigits hsome
    exact ⟨⟨.bare, c :: rest, hdigits, hsome⟩, rfl⟩
  obtain ⟨e, rfl⟩ := hchars
  rw [exponent?_chars] at h
  split at h
  · rename_i hfits
    exact .inr ⟨e, rfl, hfits, Option.some.inj h⟩
  · cases h

/-- What stands after the decimal of a literal. -/
inductive Ending where
  | plain
  | percent
  | scaled (capital : Bool) (exponent : Option Exponent)

namespace Ending

def chars : Ending → List Char
  | plain => []
  | percent => ['%']
  | scaled capital exponent => (if capital then 'E' else 'e') :: exponent.elim [] Exponent.chars

def style : Ending → Style
  | plain => .plain
  | percent => .percent
  | scaled _ exponent => .scaled (exponent.elim 18 Exponent.value)

def Fits : Ending → Prop
  | scaled _ (some e) => e.Fits
  | _ => True

instance (ending : Ending) : Decidable ending.Fits :=
  match ending with
  | plain => inferInstanceAs (Decidable True)
  | percent => inferInstanceAs (Decidable True)
  | scaled _ none => inferInstanceAs (Decidable True)
  | scaled _ (some e) => inferInstanceAs (Decidable e.Fits)

end Ending

/-- How a number may be written. -/
structure Literal where
  decimal : Decimal.Spelling
  ending : Ending

namespace Literal

def chars (l : Literal) : List Char := l.decimal.chars ++ l.ending.chars

def style (l : Literal) : Style := l.ending.style

/-- At most 8192 digits on each side of the point, and at most 32 bits in the exponent. -/
def Fits (l : Literal) : Prop := l.decimal.Fits maxDigits ∧ l.ending.Fits

instance (l : Literal) : Decidable l.Fits := inferInstanceAs (Decidable (_ ∧ _))

/-- The number that a literal denotes. -/
def denoted (l : Literal) : ℚ :=
  match l.ending with
  | .plain => l.decimal.toRat
  | .percent => l.decimal.toRat / 100
  | .scaled _ none => l.decimal.toRat * 10 ^ 18
  | .scaled _ (some e) => l.decimal.toRat * 10 ^ e.value

theorem toRat_shift (l : Literal) : (l.decimal.value.shift l.style.exponent).toRat = l.denoted := by
  obtain ⟨s, ending⟩ := l
  rw [Decimal.toRat_shift, s.toRat_value]
  match ending with
  | .plain => simp [style, Ending.style, Style.exponent, denoted]
  | .percent =>
    have hcent : (10 : ℚ) ^ (-2 : ℤ) = 100⁻¹ := by norm_num
    simp [style, Ending.style, Style.exponent, denoted, hcent, div_eq_mul_inv]
  | .scaled _ none => rfl
  | .scaled _ (some e) => rfl

end Literal

theorem not_mark_of_mem_chars {s : Decimal.Spelling} {c : Char} (hc : c ∈ s.chars) :
    c ≠ '%' ∧ isExponentMark c = false := by
  rcases s.mem_chars hc with rfl | rfl | rfl | hdigit
  · decide
  · decide
  · decide
  · have hmark : c ≠ 'e' ∧ c ≠ 'E' ∧ c ≠ '%' := by
      refine ⟨?_, ?_, ?_⟩ <;> rintro rfl <;> cases hdigit
    rw [isExponentMark, beq_false_of_ne hmark.1, beq_false_of_ne hmark.2.1]
    exact ⟨hmark.2.2, rfl⟩

theorem getLast?_ne_of_spelled (s : Decimal.Spelling) : s.chars.getLast? ≠ some '%' :=
  fun h => (not_mark_of_mem_chars (List.mem_of_getLast? h)).1 rfl

theorem isExponentMark_iff (c : Char) : isExponentMark c = true ↔ c = 'e' ∨ c = 'E' := by
  rw [isExponentMark, Bool.or_eq_true, beq_iff_eq, beq_iff_eq]

theorem getLast?_scaled_ne (s : Decimal.Spelling) (capital : Bool) (exponent : Option Exponent) :
    (s.chars ++ (Ending.scaled capital exponent).chars).getLast? ≠ some '%' := by
  intro hlast
  rcases List.mem_append.mp (List.mem_of_getLast? hlast) with hc | hc
  · exact (not_mark_of_mem_chars hc).1 rfl
  rcases List.mem_cons.mp hc with hmark | hc
  · cases capital <;> cases hmark
  cases exponent with
  | none => cases hc
  | some e => rcases e.mem_chars hc with h | h | h <;> cases h

theorem exponent?_elim (capital : Bool) (exponent : Option Exponent) :
    exponent? (exponent.elim [] Exponent.chars) =
      if (Ending.scaled capital exponent).Fits then some (exponent.elim 18 Exponent.value)
      else none := by
  cases exponent with
  | none => rfl
  | some e => exact exponent?_chars e

/-- A literal is read in the style of its ending, unless it is too long or out of range. -/
theorem parse_literal {token : String} {l : Literal} (written : l.chars = token.toList) :
    parse token =
      if l.Fits then
        if l.style.Admissible then
          checked (l.decimal.value.shift l.style.exponent) l.style
            (fun _ => .literalOutOfRange token)
        else .error (.literalOutOfRange token)
      else .error (.notANumber token) := by
  obtain ⟨s, ending⟩ := l
  have hplain (c : Char) (hc : c ∈ s.chars) : (!isExponentMark c) = true := by
    rw [(not_mark_of_mem_chars hc).2]
    rfl
  have hread : decimal? s.chars = if s.Fits maxDigits then some s.value else none :=
    s.ofChars?_chars maxDigits
  rw [Literal.chars] at written
  simp only [Literal.Fits, Literal.style]
  cases ending with
  | plain =>
    rw [Ending.chars, List.append_nil] at written
    have hmarks : s.chars.any isExponentMark = false :=
      List.any_eq_false.mpr fun c hc => by simp [(not_mark_of_mem_chars hc).2]
    simp only [parse, ← written]
    rw [if_neg (getLast?_ne_of_spelled s), hmarks, hread]
    by_cases hfits : s.Fits maxDigits <;>
      simp [hfits, Ending.Fits, Ending.style, Style.Admissible, Style.exponent]
  | percent =>
    rw [Ending.chars] at written
    simp only [parse, ← written]
    rw [if_pos List.getLast?_concat, List.dropLast_concat, hread]
    by_cases hfits : s.Fits maxDigits <;>
      simp [hfits, Ending.Fits, Ending.style, Style.Admissible, Style.exponent]
  | scaled capital exponent =>
    have hmark : isExponentMark (if capital then 'E' else 'e') = true := by cases capital <;> rfl
    have hany : (s.chars ++ (Ending.scaled capital exponent).chars).any isExponentMark = true :=
      List.any_eq_true.mpr ⟨_, List.mem_append_right _ List.mem_cons_self, hmark⟩
    simp only [parse, ← written]
    -- the text is split at its first mark, which is that of the ending as the decimal has none
    rw [if_neg (getLast?_scaled_ne s capital exponent), if_pos hany, Ending.chars,
      List.takeWhile_append_of_pos hplain, List.dropWhile_append_of_pos hplain,
      List.takeWhile_cons_of_neg (by simp [hmark]), List.dropWhile_cons_of_neg (by simp [hmark]),
      List.append_nil, List.drop_one, List.tail_cons, hread, exponent?_elim capital exponent]
    by_cases hfits : s.Fits maxDigits <;>
      by_cases hexponent : (Ending.scaled capital exponent).Fits <;>
      by_cases hsmall : (exponent.elim 18 Exponent.value).natAbs ≤ maxExponent <;>
      simp [hfits, hexponent, hsmall, ← Nat.not_le, Ending.style, Style.exponent, Style.Admissible]

theorem exists_mark {cs : List Char} (h : cs.any isExponentMark = true) :
    ∃ (capital : Bool) (rest : List Char),
      cs.dropWhile (!isExponentMark ·) = (if capital then 'E' else 'e') :: rest := by
  obtain ⟨c, hc, hmark⟩ := List.any_eq_true.mp h
  cases hdrop : cs.dropWhile (!isExponentMark ·) with
  | nil =>
    have hnone := List.dropWhile_eq_nil_iff.mp hdrop c hc
    simp [hmark] at hnone
  | cons m rest =>
    have hfirst : isExponentMark m = true := by
      have hhead := List.head?_dropWhile_not (!isExponentMark ·) cs
      rw [hdrop] at hhead
      simpa using hhead
    rcases (isExponentMark_iff m).mp hfirst with rfl | rfl
    · exact ⟨false, rest, rfl⟩
    · exact ⟨true, rest, rfl⟩

theorem exists_literal {token : String} (h : parse token ≠ .error (.notANumber token)) :
    ∃ l : Literal, l.chars = token.toList ∧ l.Fits := by
  -- each reading that is not refused has a decimal, and what follows it is the ending
  simp only [parse] at h
  split at h
  · rename_i hlast
    obtain ⟨body, hbody⟩ := List.getLast?_eq_some_iff.mp hlast
    rw [hbody, List.dropLast_concat] at h
    split at h
    · exact absurd rfl h
    · rename_i d hd
      obtain ⟨s, rfl, hfits, -⟩ := Decimal.Spelling.exists_of_ofChars? hd
      exact ⟨⟨s, .percent⟩, hbody.symm, hfits, trivial⟩
  split at h
  · rename_i hany
    split at h
    · rename_i d k hd hk
      obtain ⟨s, hchars, hfits, -⟩ := Decimal.Spelling.exists_of_ofChars? hd
      obtain ⟨capital, rest, hrest⟩ := exists_mark hany
      have hsplit := List.takeWhile_append_dropWhile (p := (!isExponentMark ·)) (l := token.toList)
      rw [hrest, ← hchars] at hsplit
      rw [hrest, List.drop_one, List.tail_cons] at hk
      rcases exists_of_exponent? hk with ⟨rfl, -⟩ | ⟨e, rfl, hexponent, -⟩
      · exact ⟨⟨s, .scaled capital none⟩, hsplit, hfits, trivial⟩
      · exact ⟨⟨s, .scaled capital (some e)⟩, hsplit, hfits, hexponent⟩
    · exact absurd rfl h
  · split at h
    · exact absurd rfl h
    · rename_i d hd
      obtain ⟨s, hchars, hfits, -⟩ := Decimal.Spelling.exists_of_ofChars? hd
      exact ⟨⟨s, .plain⟩, (List.append_nil _).trans hchars, hfits, trivial⟩

/-- A text is no number exactly if no literal is written so. A literal gives the number that it
denotes, in its own style, if its exponent is small and the number is representable, and is out of
range otherwise. -/
theorem literals_read_exactly (token : String) :
    (parse token = .error (.notANumber token) ↔
        ¬ ∃ l : Literal, l.chars = token.toList ∧ l.Fits) ∧
      ∀ l : Literal, l.chars = token.toList → l.Fits →
        ExactOrRefused (l.style.Admissible ∧ Representable l.denoted) (parse token) l.denoted
          l.style (.literalOutOfRange token) := by
  have reads (l : Literal) (written : l.chars = token.toList) (hfits : l.Fits) :
      ExactOrRefused (l.style.Admissible ∧ Representable l.denoted) (parse token) l.denoted
        l.style (.literalOutOfRange token) := by
    have checks := exactOrRefused_checked l.toRat_shift l.style
      (fun _ => .literalOutOfRange token)
    rw [parse_literal written, if_pos hfits]
    by_cases hsmall : l.style.Admissible
    · simpa [hsmall] using checks
    · rw [if_neg hsmall]
      exact .of_refused (fun h => hsmall h.1) rfl
  refine ⟨?_, reads⟩
  constructor
  · rintro hinvalid ⟨l, written, hfits⟩
    exact (reads l written hfits).ne_error (by simp) hinvalid
  · intro hnone
    by_contra hvalid
    exact hnone (exists_literal hvalid)

theorem literals_read_exactly_scaled :
    let decimal : Decimal.Spelling := ⟨.minus, ['0', '1'], some ['5', '0'], by simp, by simp⟩
    let exponent : Exponent := ⟨.minus, ['0', '3'], by simp, by simp⟩
    let l : Literal := ⟨decimal, .scaled true (some exponent)⟩
    l.chars = "-01.50E-03".toList ∧ l.Fits ∧
      ∃ n, parse "-01.50E-03" = .ok n ∧ n.value.toRat = -15 / 10000 ∧ n.style = .scaled (-3) := by
  intro decimal exponent l
  have written : l.chars = "-01.50E-03".toList := by decide
  have hfits : l.Fits := by decide
  have hvalue : l.denoted = -15 / 10000 := by
    show (-((150 : ℕ) : ℤ) : ℚ) / 10 ^ 2 * 10 ^ (-3 : ℤ) = -15 / 10000
    norm_num
  have hrange : Representable l.denoted := by
    rw [← l.toRat_shift, ← inRange_iff_representable]
    decide +kernel
  rw [← hvalue]
  exact ⟨written, hfits,
    ((literals_read_exactly "-01.50E-03").2 l written hfits).exact_iff.mpr ⟨by decide, hrange⟩⟩

end Number

end LedgerScript
