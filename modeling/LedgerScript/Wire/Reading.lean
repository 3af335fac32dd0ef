import LedgerScript.Text.Hex
import LedgerScript.Text.Reader
import LedgerScript.Wire.Basic

/-!
# Wire values from JSON text

A number without point and exponent that fits into 64 bits, signed or unsigned, is an integer; any
other number is a double, and so is a negative zero. A double is read from as many of its
digits as fit into 64 bits. Of two fields of one name the later one counts.
-/

set_option autoImplicit false

namespace LedgerScript.Wire

open Text (Reader)

def isSpace (c : Char) : Bool := c == ' ' || c == '\t' || c == '\n' || c == '\r'

def skipSpaces (cs : List Char) : List Char := cs.dropWhile isSpace

def unicode? (cs : List Char) : Option (Char × List Char) := do
  let (n, rest) ← Text.takeHex? 4 cs
  if n / 0x400 = 0x36 then
    match rest with
    | '\\' :: 'u' :: rest =>
      let (m, rest) ← Text.takeHex? 4 rest
      if m / 0x400 = 0x37 then some (Char.ofNat (0x10000 + n % 0x400 * 0x400 + m % 0x400), rest) else none
    | _ => none
  else if n.isValidChar then some (Char.ofNat n, rest) else none

def escape? : Reader Char
  | '"' :: rest => some ('"', rest)
  | '\\' :: rest => some ('\\', rest)
  | '/' :: rest => some ('/', rest)
  | 'b' :: rest => some ('\x08', rest)
  | 'f' :: rest => some ('\x0c', rest)
  | 'n' :: rest => some ('\n', rest)
  | 'r' :: rest => some ('\r', rest)
  | 't' :: rest => some ('\t', rest)
  | 'u' :: rest => unicode? rest
  | _ => none

/-- The rest of a string after its opening quote; `before` holds what was read, last first. -/
def stringRest : Nat → List Char → List Char → Option (String × List Char)
  | 0, _, _ | _, _, [] => none
  | _ + 1, before, '"' :: rest => some (String.ofList before.reverse, rest)
  | fuel + 1, before, '\\' :: rest => do
    let (c, rest) ← escape? rest
    stringRest fuel (c :: before) rest
  | fuel + 1, before, c :: rest => if c.toNat < 32 then none else stringRest fuel (c :: before) rest

def digits (cs : List Char) : List Char × List Char :=
  (cs.takeWhile Char.isDigit, cs.dropWhile Char.isDigit)

def fraction : List Char → List Char × List Char
  | '.' :: rest => digits rest
  | cs => ([], cs)

def signed : List Char → Bool × List Char
  | '-' :: rest => (true, rest)
  | '+' :: rest => (false, rest)
  | cs => (false, cs)

def exponent (cs : List Char) : Int × List Char :=
  match cs with
  | 'e' :: rest | 'E' :: rest =>
    let (negative, rest) := signed rest
    let (ds, rest) := digits rest
    let n : Int := Nat.ofDigitChars 10 ds 0
    (if negative then -n else n, rest)
  | _ => (0, cs)

def fitsWord (negative : Bool) (n : Nat) : Bool :=
  if negative then 0 < n && n ≤ pow2 63 else n < pow2 64

/-- Appends digits to a number as long as it fits into 64 bits: the number, and the digits left. -/
def takeDigits (n : Nat) : List Char → Nat × List Char
  | [] => (n, [])
  | c :: rest =>
    let m := 10 * n + (c.toNat - '0'.toNat)
    if m < pow2 64 then takeDigits m rest else (n, c :: rest)

def significand (whole part : List Char) : Nat × Int :=
  let (n, wholeLeft) := takeDigits 0 whole
  let (m, partLeft) := takeDigits n part
  (m, (wholeLeft.length + partLeft.length : Int) - part.length)

def number : Reader Wire := fun cs => do
  let (negative, body) := signed cs
  let (whole, rest) := digits body
  let (part, afterPart) := fraction rest
  let (power, after) := exponent afterPart
  let n := Nat.ofDigitChars 10 whole 0
  if whole.isEmpty then none
  else if after.length = rest.length && fitsWord negative n then
    some (.integer (if negative then -(n : Int) else n), rest)
  else
    let (m, scale) := significand whole part
    (Double.ofDecimal? negative m (power + scale)).map (.double ·, after)

mutual
/-- Reads a value. Two steps take at least one character, so twice the length of the text is
enough of `fuel`. -/
def valueWithin (fuel : Nat) (cs : List Char) : Option (Wire × List Char) :=
  match fuel, skipSpaces cs with
  | 0, _ => none
  | _ + 1, 'n' :: 'u' :: 'l' :: 'l' :: rest => some (.null, rest)
  | _ + 1, 't' :: 'r' :: 'u' :: 'e' :: rest => some (.bool true, rest)
  | _ + 1, 'f' :: 'a' :: 'l' :: 's' :: 'e' :: rest => some (.bool false, rest)
  | fuel + 1, '"' :: rest => (stringRest fuel [] rest).map (fun (s, rest) => (.string s, rest))
  | fuel + 1, '[' :: rest =>
    match skipSpaces rest with
    | ']' :: rest => some (.array [], rest)
    | rest => (itemsWithin fuel rest).map (fun (items, rest) => (.array items, rest))
  | fuel + 1, '{' :: rest =>
    match skipSpaces rest with
    | '}' :: rest => some (.object [], rest)
    | rest => (fieldsWithin fuel rest).map (fun (fs, rest) => (objectOf fs, rest))
  | _ + 1, cs => number cs

def itemsWithin (fuel : Nat) (cs : List Char) : Option (List Wire × List Char) :=
  match fuel with
  | 0 => none
  | fuel + 1 => do
    let (item, rest) ← valueWithin fuel cs
    match skipSpaces rest with
    | ',' :: rest =>
      let (items, rest) ← itemsWithin fuel rest
      return (item :: items, rest)
    | ']' :: rest => return ([item], rest)
    | _ => none

def fieldsWithin (fuel : Nat) (cs : List Char) : Option (List (String × Wire) × List Char) :=
  match fuel, skipSpaces cs with
  | fuel + 1, '"' :: rest => do
    let (name, rest) ← stringRest fuel [] rest
    match skipSpaces rest with
    | ':' :: rest =>
      let (w, rest) ← valueWithin fuel rest
      match skipSpaces rest with
      | ',' :: rest =>
        let (fs, rest) ← fieldsWithin fuel rest
        return ((name, w) :: fs, rest)
      | '}' :: rest => return ([(name, w)], rest)
      | _ => none
    | _ => none
  | _, _ => none
end

def ofText? (text : String) : Option Wire := do
  let cs := text.toList
  let (w, rest) ← valueWithin (2 * cs.length + 1) cs
  if (skipSpaces rest).isEmpty then some w else none

end LedgerScript.Wire
