import LedgerScript.Quantity.Power

/-!
# Binary floating-point numbers as decimal text

A finite double is written with the fewest significant digits that read back as the
same double, and among these with the digits nearest to it. A decimal is read by one rounded
product or quotient with a rounded power of ten, which need not give the nearest double. All
this is exact integer arithmetic.
-/

set_option autoImplicit false

namespace LedgerScript.Double

/-- A positive double as `mantissa * 2 ^ power`, where the gap to the next smaller
double is half as wide as the gap to the next greater one exactly when `narrowBelow`. -/
structure Parts where
  mantissa : Nat
  power : Int
  narrowBelow : Bool

def isNegative (bits : UInt64) : Bool := bits.toNat / pow2 63 == 1

def parts (bits : UInt64) : Parts :=
  let fraction := bits.toNat % pow2 52
  let exponent : Nat := bits.toNat / pow2 52 % pow2 11
  if exponent = 0 then ⟨fraction, -1074, false⟩
  else ⟨fraction + pow2 52, (exponent : Int) - 1075, fraction == 0 && exponent != 1⟩

structure Point where
  digits : Nat
  power : Int

/-- The exact numbers `left / right` to compare for a number of quarter units of the
mantissa's last place and a point of the decimal grid with the given power. -/
structure Scales where
  left : Nat
  right : Nat

def scales (p : Parts) (power : Int) : Scales where
  left := pow2 (p.power - 2).toNat * pow10 (-power).toNat
  right := pow2 (2 - p.power).toNat * pow10 power.toNat

def readsBack (p : Parts) (point : Point) : Bool :=
  let s := scales p point.power
  let x := point.digits * s.right
  let low := (4 * p.mantissa - if p.narrowBelow then 1 else 2) * s.left
  let high := (4 * p.mantissa + 2) * s.left
  if p.mantissa % 2 = 0 then low ≤ x && x ≤ high else low < x && x < high

def distance (p : Parts) (point : Point) : Nat :=
  let s := scales p point.power
  let x := point.digits * s.right
  let v := 4 * p.mantissa * s.left
  (x - v) + (v - x)

def neighbours (p : Parts) (power : Int) : Point × Point :=
  let s := scales p power
  let below := 4 * p.mantissa * s.left / s.right
  (⟨below, power⟩, ⟨below + 1, power⟩)

/-- The nearer of the two neighbours that read back; of two equally near, the even one. -/
def onGrid (p : Parts) (power : Int) : Option Point :=
  let (below, above) := neighbours p power
  match readsBack p below, readsBack p above with
  | true, true =>
    if distance p below < distance p above then some below
    else if distance p above < distance p below then some above
    else if below.digits % 2 = 0 then some below else some above
  | true, false => some below
  | false, true => some above
  | false, false => none

def digitCount (n : Nat) : Nat := (Nat.toDigits 10 n).length

def leadingPower (p : Parts) : Int :=
  let s := scales p 0
  let v := 4 * p.mantissa * s.left
  if s.right ≤ v then digitCount (v / s.right) - 1
  else -(digitCount ((s.right - 1) / v))

def shortestFrom (p : Parts) (leading : Int) (tried : Nat) : Nat → Point
  | 0 => (neighbours p (leading - tried + 1)).1
  | fuel + 1 =>
    match onGrid p (leading - tried + 1) with
    | some point => point
    | none => shortestFrom p leading (tried + 1) fuel

def shortest (p : Parts) : Point := shortestFrom p (leadingPower p) 1 17

def withoutFinalZeros (cs : List Char) : List Char := (cs.reverse.dropWhile (· == '0')).reverse

/-- The layout of the digits `ds`, the first of which stands for `10 ^ leading`: positional
from `10 ^ (-5)` to below `10 ^ 16`, with at least one digit on each side of the
point, and scientific with a signed exponent beyond. -/
def layout (ds : List Char) (leading : Int) : List Char :=
  if -5 ≤ leading ∧ leading ≤ 15 then
    if leading < 0 then
      ['0', '.'] ++ List.replicate (-leading - 1).toNat '0' ++ ds
    else
      let whole := leading.toNat + 1
      let fraction := ds.drop whole
      ds.take whole ++ List.replicate (whole - ds.length) '0' ++ ['.'] ++
        (if fraction.isEmpty then ['0'] else fraction)
  else
    let exponent := (if leading < 0 then ['e', '-'] else ['e', '+']) ++ Nat.toDigits 10 leading.natAbs
    match ds with
    | d :: e :: rest => d :: '.' :: e :: rest ++ exponent
    | _ => ds ++ exponent

def magnitudeText (bits : UInt64) : List Char :=
  let p := parts bits
  if p.mantissa = 0 then ['0', '.', '0']
  else
    let point := shortest p
    let digits := Nat.toDigits 10 point.digits
    layout (withoutFinalZeros digits) (point.power + digits.length - 1)

def text (bits : UInt64) : String :=
  String.ofList (if isNegative bits then '-' :: magnitudeText bits else magnitudeText bits)

def roundedQuotient (a b : Nat) : Nat :=
  let q := a / b
  let twice := 2 * (a % b)
  if twice < b then q else if b < twice then q + 1 else q + q % 2

def lastPlace (a b : Nat) : Int :=
  let guess : Int := a.log2 - b.log2
  let reached := b * pow2 guess.toNat ≤ a * pow2 (-guess).toNat
  max (-1074) ((if reached then guess else guess - 1) - 52)

/-- The bits of the double nearest to the number `a / b`, of two equally near the one with an even
mantissa. Numbers beyond the finite doubles get `infinity` or more. -/
def nearest (a b : Nat) : Nat :=
  let place := lastPlace a b
  let mantissa := roundedQuotient (a * pow2 (-place).toNat) (b * pow2 place.toNat)
  if mantissa < pow2 52 then mantissa else (place + 1074).toNat * pow2 52 + mantissa

def infinity : Nat := 2047 * pow2 52

def numerator (bits : Nat) : Nat :=
  let p := parts (UInt64.ofNat bits)
  p.mantissa * pow2 p.power.toNat

def denominator (bits : Nat) : Nat := pow2 (-(parts (UInt64.ofNat bits)).power).toNat

def times (bits n : Nat) : Nat := nearest (numerator bits * n) (denominator bits)

def dividedBy (bits n : Nat) : Nat := nearest (numerator bits) (denominator bits * n)

def maxPower : Nat := 308

def roundPower (k : Nat) : Nat :=
  let bits := nearest (pow10 k) 1
  numerator bits / denominator bits

def dividedByPower (bits k : Nat) : Nat :=
  if k ≤ maxPower then dividedBy bits (roundPower k)
  else if bits = 0 then bits
  else dividedByPower (dividedBy bits (roundPower maxPower)) (k - maxPower)
termination_by k
decreasing_by
  simp only [maxPower] at *
  omega

def timesPower (bits k : Nat) : Nat :=
  if k ≤ maxPower then times bits (roundPower k)
  else if bits = 0 then bits
  else infinity

/-- The double as which `m * 10 ^ power` is read: `m` is rounded, and so is the product or the
quotient with the rounded power of ten. There is none beyond the finite doubles. -/
def ofDecimal? (negative : Bool) (m : Nat) (power : Int) : Option UInt64 :=
  let bits := nearest m 1
  let magnitude :=
    if 0 ≤ power then timesPower bits power.toNat else dividedByPower bits power.natAbs
  if magnitude < infinity then
    some (UInt64.ofNat (if negative then pow2 63 + magnitude else magnitude))
  else none

end LedgerScript.Double
