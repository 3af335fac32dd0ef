import LedgerScript.Quantity.Number

/-!
# Numeric literals

A literal is a decimal, a decimal and a percent sign, or a decimal, the letter `e` in
either case and an exponent, which may be left out. The value is exact.
-/

set_option autoImplicit false

namespace LedgerScript.Number

/-- A signed decimal integer of 32 bits; nothing stands for the default exponent. -/
def exponent? (cs : List Char) : Option Int :=
  let negative := cs.head? == some '-'
  let digits := if negative || cs.head? == some '+' then cs.tail else cs
  if cs.isEmpty then some defaultExponent
  else if digits.isEmpty || !digits.all Char.isDigit then none
  else
    let n : Int := Nat.ofDigitChars 10 digits 0
    let k := if negative then -n else n
    if -(pow2 31 : Int) ≤ k ∧ k < pow2 31 then some k else none

def isExponentMark (c : Char) : Bool := c == 'e' || c == 'E'

def decimal? (cs : List Char) : Option Decimal := Decimal.ofChars? cs maxDigits

def parse (token : String) : Except NumericError Number :=
  let cs := token.toList
  let invalid := NumericError.notANumber token
  let outside (_ : Unit) := NumericError.literalOutOfRange token
  if cs.getLast? = some '%' then
    match decimal? cs.dropLast with
    | none => .error invalid
    | some d => checked (d.shift (-2)) .percent outside
  else if cs.any isExponentMark then
    match decimal? (cs.takeWhile (!isExponentMark ·)),
        exponent? ((cs.dropWhile (!isExponentMark ·)).drop 1) with
    | some d, some k =>
      if maxExponent < k.natAbs then .error (outside ()) else checked (d.shift k) (.scaled k) outside
    | _, _ => .error invalid
  else
    match decimal? cs with
    | none => .error invalid
    | some d => checked d .plain outside

def parse? (token : String) : Option Number := (parse token).toOption

theorem parse?_eq_some_iff (token : String) (n : Number) :
    parse? token = some n ↔ parse token = .ok n := by
  rw [parse?]
  cases parse token with
  | ok m => simp only [Except.toOption, Option.some.injEq, Except.ok.injEq]
  | error e => exact ⟨fun h => (by cases h), fun h => (by cases h)⟩

end LedgerScript.Number
