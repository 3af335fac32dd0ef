import LedgerScript.Quantity.Power
import LedgerScript.Text.Reader

/-!
# Dates and times

A date, a time of day, or a date and a time with or without an offset. The written form
has a `T` between date and time and a capital `Z`, and the fraction of a second without
final zeros. A fraction is cut after nine digits.
-/

set_option autoImplicit false

namespace LedgerScript.Toml

open Text (Reader)

structure Date where
  year : Nat
  month : Nat
  day : Nat
  deriving DecidableEq

structure Time where
  hour : Nat
  minute : Nat
  second : Nat
  nanosecond : Nat
  deriving DecidableEq

inductive Offset where
  | utc
  | minutes (n : Int)
  deriving DecidableEq

inductive DateTime where
  | date (d : Date)
  | time (t : Time)
  | full (d : Date) (t : Time) (offset : Option Offset)
  deriving DecidableEq

def isLeapYear (year : Nat) : Bool := year % 4 == 0 && (year % 100 != 0 || year % 400 == 0)

def daysOfMonth (year month : Nat) : Nat :=
  if month = 2 then if isLeapYear year then 29 else 28
  else if month = 4 ∨ month = 6 ∨ month = 9 ∨ month = 11 then 30
  else 31

namespace Date

def read : Reader Date := fun cs => do
  let (year, rest) ← Text.fixedNumber 4 cs
  let (month, rest) ← Text.fixedNumber 2 (← Text.after? '-' rest)
  let (day, rest) ← Text.fixedNumber 2 (← Text.after? '-' rest)
  if 1 ≤ month && month ≤ 12 && 1 ≤ day && day ≤ daysOfMonth year month then
    some (⟨year, month, day⟩, rest)
  else none

end Date

/-- The nanoseconds that the digits of a fraction of a second stand for. -/
def nanoseconds (ds : List Char) : Nat :=
  Nat.ofDigitChars 10 (ds.take 9) 0 * pow10 (9 - ds.length)

def readFraction (cs : List Char) : Nat × List Char :=
  match cs with
  | '.' :: rest =>
    let ds := rest.takeWhile Char.isDigit
    if ds.isEmpty then (0, cs) else (nanoseconds ds, rest.dropWhile Char.isDigit)
  | _ => (0, cs)

def readClock : Reader (Nat × Nat) := fun cs => do
  let (hour, rest) ← Text.fixedNumber 2 cs
  let (minute, rest) ← Text.fixedNumber 2 (← Text.after? ':' rest)
  if hour ≤ 23 && minute ≤ 59 then some ((hour, minute), rest) else none

namespace Time

/-- The sixtieth second is a leap second. -/
def read : Reader Time := fun cs => do
  let ((hour, minute), rest) ← readClock cs
  let (second, rest) ← Text.fixedNumber 2 (← Text.after? ':' rest)
  let (nanosecond, rest) := readFraction rest
  if second ≤ 60 then some (⟨hour, minute, second, nanosecond⟩, rest) else none

end Time

namespace Offset

def ofSigned (negative : Bool) (clock : Nat × Nat) : Offset :=
  let n : Int := 60 * clock.1 + clock.2
  .minutes (if negative then -n else n)

def read : Reader Offset
  | 'Z' :: rest | 'z' :: rest => some (.utc, rest)
  | '+' :: rest => (readClock rest).map (fun (clock, rest) => (ofSigned false clock, rest))
  | '-' :: rest => (readClock rest).map (fun (clock, rest) => (ofSigned true clock, rest))
  | _ => none

end Offset

def isTimeMark (c : Char) : Bool := c == 'T' || c == 't' || c == ' '

def readTimePart : Reader Time
  | [] => none
  | c :: rest => if isTimeMark c then Time.read rest else none

namespace DateTime

def readDated : Reader DateTime := fun cs => do
  let (d, rest) ← Date.read cs
  match readTimePart rest with
  | none => return (.date d, rest)
  | some (t, rest) =>
    match Offset.read rest with
    | none => return (.full d t none, rest)
    | some (offset, rest) => return (.full d t (some offset), rest)

def read : Reader DateTime := fun cs =>
  (readDated cs).or ((Time.read cs).map (fun (t, rest) => (.time t, rest)))

end DateTime

def padded (width n : Nat) : List Char :=
  let ds := Nat.toDigits 10 n
  List.replicate (width - ds.length) '0' ++ ds

namespace Date

def chars (d : Date) : List Char := padded 4 d.year ++ '-' :: padded 2 d.month ++ '-' :: padded 2 d.day

end Date

def clockChars (hour minute : Nat) : List Char := padded 2 hour ++ ':' :: padded 2 minute

namespace Time

def fractionChars (nanosecond : Nat) : List Char :=
  if nanosecond = 0 then []
  else '.' :: ((padded 9 nanosecond).reverse.dropWhile (· == '0')).reverse

def chars (t : Time) : List Char :=
  clockChars t.hour t.minute ++ ':' :: padded 2 t.second ++ fractionChars t.nanosecond

end Time

namespace Offset

def chars : Offset → List Char
  | .utc => ['Z']
  | .minutes n => (if n < 0 then '-' else '+') :: clockChars (n.natAbs / 60) (n.natAbs % 60)

end Offset

namespace DateTime

def chars : DateTime → List Char
  | .date d => d.chars
  | .time t => t.chars
  | .full d t offset => d.chars ++ 'T' :: t.chars ++ (offset.map Offset.chars).getD []

def text (d : DateTime) : String := String.ofList d.chars

end DateTime

end LedgerScript.Toml
