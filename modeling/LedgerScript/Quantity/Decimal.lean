import LedgerScript.Quantity.Power

/-!
# Exact decimals

A decimal is an integer divided by a power of ten. The scale is the least one possible, so
two decimals are the same number exactly when they are equal.
-/

set_option autoImplicit false

namespace LedgerScript

/-- The number `unscaled / 10 ^ scale`. -/
structure Decimal where
  unscaled : Int
  scale : Nat
  normal : scale = 0 ∨ unscaled % 10 ≠ 0
  deriving DecidableEq

namespace Decimal

/-- Drops final zero digits of `unscaled` while there are fractional digits to drop. -/
def reduce (unscaled : Int) : Nat → Int × Nat
  | 0 => (unscaled, 0)
  | scale + 1 =>
    if unscaled % 10 = 0 then reduce (unscaled / 10) scale else (unscaled, scale + 1)

theorem reduce_normal (unscaled : Int) (scale : Nat) :
    (reduce unscaled scale).2 = 0 ∨ (reduce unscaled scale).1 % 10 ≠ 0 := by
  induction scale generalizing unscaled with
  | zero => exact .inl rfl
  | succ scale ih =>
    by_cases h : unscaled % 10 = 0
    · simpa [reduce, h] using ih (unscaled / 10)
    · simp [reduce, h]

theorem reduce_scale_le (unscaled : Int) (scale : Nat) : (reduce unscaled scale).2 ≤ scale := by
  induction scale generalizing unscaled with
  | zero => exact Nat.le_refl _
  | succ scale ih =>
    simp only [reduce]
    split
    · exact Nat.le_succ_of_le (ih _)
    · exact Nat.le_refl _

theorem reduce_value (unscaled : Int) (scale : Nat) :
    (reduce unscaled scale).1 * pow10 (scale - (reduce unscaled scale).2) = unscaled := by
  induction scale generalizing unscaled with
  | zero => simp [reduce, pow10_zero]
  | succ scale ih =>
    by_cases h : unscaled % 10 = 0
    · have hle := reduce_scale_le (unscaled / 10) scale
      simp only [reduce, h, if_true, Nat.succ_sub hle, pow10_succ, Int.natCast_mul]
      rw [← Int.mul_assoc, ih]
      omega
    · simp [reduce, h, pow10_zero]

def of (unscaled : Int) (scale : Nat) : Decimal :=
  ⟨(reduce unscaled scale).1, (reduce unscaled scale).2, reduce_normal unscaled scale⟩

def ofInt (n : Int) : Decimal := ⟨n, 0, .inl rfl⟩

def zero : Decimal := ofInt 0

instance : Inhabited Decimal := ⟨zero⟩

def isZero (d : Decimal) : Bool := d.unscaled == 0

def isNegative (d : Decimal) : Bool := d.unscaled < 0

def rescaled (d : Decimal) (scale : Nat) : Int := d.unscaled * pow10 (scale - d.scale)

def shift (d : Decimal) (k : Int) : Decimal :=
  if d.unscaled = 0 then d
  else if k ≤ d.scale then of d.unscaled (d.scale - k).toNat
  else ofInt (d.unscaled * pow10 (k - d.scale).toNat)

def add (a b : Decimal) : Decimal :=
  let scale := max a.scale b.scale
  of (a.rescaled scale + b.rescaled scale) scale

def sub (a b : Decimal) : Decimal :=
  let scale := max a.scale b.scale
  of (a.rescaled scale - b.rescaled scale) scale

def mul (a b : Decimal) : Decimal := of (a.unscaled * b.unscaled) (a.scale + b.scale)

/-- The quotient, cut toward zero after `extra` fractional digits more than the operands have. -/
def quotient (a b : Decimal) (extra : Nat) : Decimal :=
  let scale := max a.scale b.scale + extra
  of ((a.unscaled * pow10 (scale + b.scale - a.scale)).tdiv b.unscaled) scale

def cmp (a b : Decimal) : Ordering :=
  let scale := max a.scale b.scale
  compare (a.rescaled scale) (b.rescaled scale)

/-- At most `digits` fractional digits, and at most `bits` bits without the point. -/
def fits (d : Decimal) (digits bits : Nat) : Bool :=
  d.scale ≤ digits && d.unscaled.natAbs < pow2 bits

/-- The digits with a point in front of the last `scale` of them, and one before the point. -/
def magnitudeChars (d : Decimal) : List Char :=
  let digits := Nat.toDigits 10 d.unscaled.natAbs
  if d.scale = 0 then digits
  else
    let padded := List.replicate (d.scale + 1 - digits.length) '0' ++ digits
    padded.take (padded.length - d.scale) ++ '.' :: padded.drop (padded.length - d.scale)

def chars (d : Decimal) : List Char :=
  if d.isNegative then '-' :: d.magnitudeChars else d.magnitudeChars

def text (d : Decimal) : String := String.ofList d.chars

/-- Reads an optional sign, digits, and an optional point with digits after it: at
least one digit in all, at most `limit` on each side of the point. -/
def ofChars? (cs : List Char) (limit : Nat) : Option Decimal :=
  let negative := cs.head? == some '-'
  let body := if negative || cs.head? == some '+' then cs.tail else cs
  let whole := body.takeWhile (· != '.')
  let fraction := (body.dropWhile (· != '.')).drop 1
  if (whole.isEmpty && fraction.isEmpty) || !whole.all Char.isDigit || !fraction.all Char.isDigit ||
      whole.length > limit || fraction.length > limit then none
  else
    let n : Int := Nat.ofDigitChars 10 (whole ++ fraction) 0
    some (of (if negative then -n else n) fraction.length)

end Decimal

end LedgerScript
