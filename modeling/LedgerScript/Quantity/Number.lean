import LedgerScript.Quantity.Decimal

/-!
# Numbers

A number is an exact decimal together with the style in which it was written. Every number
lies in one range, which bounds its fractional digits and its size; a result outside
it is refused, and nothing is rounded but the quotient of a division.
-/

set_option autoImplicit false

namespace LedgerScript

inductive NumericError where
  | notANumber (token : String)
  | literalOutOfRange (token : String)
  | resultOutOfRange (expression : String)
  | divisionByZero
  deriving DecidableEq

def NumericError.message : NumericError → String
  | .notANumber token => "`" ++ token ++ "` is not a number"
  | .literalOutOfRange token => "numeric overflow: `" ++ token ++ "` is outside the supported range"
  | .resultOutOfRange expression => "numeric overflow: " ++ expression
  | .divisionByZero => "division by zero"

namespace Number

/-- How a number is written: plainly, as a multiple of a power of ten, or in hundredths. -/
inductive Style where
  | plain
  | scaled (exponent : Int)
  | percent
  deriving DecidableEq

end Number

structure Number where
  value : Decimal
  style : Number.Style
  deriving DecidableEq

namespace Number

/-- The most fractional digits, and the most digits that a literal has on a side of its point. -/
def maxDigits : Nat := 8192

/-- The most bits of a number without its point, about as many as `maxDigits` digits take. -/
def maxBits : Nat := 27300

def maxExponent : Nat := 4096

/-- The exponent of a scaled literal that ends in its `e`, and of `Number.exp`. -/
def defaultExponent : Int := 18

def quotientDigits : Nat := 36

def ofInt (n : Int) : Number := ⟨.ofInt n, .plain⟩

instance : Inhabited Number := ⟨ofInt 0⟩

def inRange (d : Decimal) : Bool := d.fits maxDigits maxBits

def checked (d : Decimal) (style : Style) (outside : Unit → NumericError) :
    Except NumericError Number :=
  if inRange d then .ok ⟨d, style⟩ else .error (outside ())

def render (n : Number) : String :=
  match n.style with
  | .plain => n.value.text
  | .scaled k => (n.value.shift (-k)).text ++ "e" ++ toString k
  | .percent => (n.value.shift 2).text ++ "%"

def plainText (n : Number) : String := n.value.text

def isZero (n : Number) : Bool := n.value.isZero

def isNegative (n : Number) : Bool := n.value.isNegative

def toInt? (n : Number) : Option Int := if n.value.scale = 0 then some n.value.unscaled else none

def eqv (a b : Number) : Bool := a.value == b.value

def cmp (a b : Number) : Ordering := a.value.cmp b.value

/-- The smaller number, the first one if they are equal. -/
def min (a b : Number) : Number := if b.cmp a = .lt then b else a

/-- The larger number, the second one if they are equal. -/
def max (a b : Number) : Number := if b.cmp a = .lt then a else b

def add (a b : Number) : Except NumericError Number :=
  checked (a.value.add b.value) .plain
    (fun _ => .resultOutOfRange (a.render ++ " + " ++ b.render))

def sub (a b : Number) : Except NumericError Number :=
  checked (a.value.sub b.value) .plain
    (fun _ => .resultOutOfRange (a.render ++ " - " ++ b.render))

def mul (a b : Number) : Except NumericError Number :=
  checked (a.value.mul b.value) .plain
    (fun _ => .resultOutOfRange (a.render ++ " * " ++ b.render))

def div (a b : Number) : Except NumericError Number :=
  if b.isZero then .error .divisionByZero
  else checked (a.value.quotient b.value quotientDigits) .plain
    (fun _ => .resultOutOfRange (a.render ++ " / " ++ b.render))

def exp (n : Number) : Except NumericError Number :=
  checked (n.value.shift defaultExponent) (.scaled defaultExponent)
    (fun _ => .resultOutOfRange (n.render ++ " × 10^" ++ toString defaultExponent))

end Number

end LedgerScript
