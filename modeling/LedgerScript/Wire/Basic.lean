import LedgerScript.Data.Fields
import LedgerScript.Wire.Double

/-!
# Wire values

The values that travel between a script and a ledger, and their compact JSON text.
The fields of an object stand in the order of their names.
-/

set_option autoImplicit false

namespace LedgerScript

inductive Wire where
  | null
  | bool (b : Bool)
  | integer (n : Int)
  /-- A finite IEEE double, by its bits. -/
  | double (bits : UInt64)
  | string (s : String)
  | array (items : List Wire)
  | object (fields : List (String × Wire))

namespace Wire

instance : Inhabited Wire := ⟨.null⟩

def ofFields (f : Fields Wire) : Wire := .object f.entries

/-- The object with the given fields; of two under one name the later one counts. -/
def objectOf (xs : List (String × Wire)) : Wire := ofFields (Fields.ofList xs)

def hexDigit (n : Nat) : Char := Nat.digitChar (n % 16)

def escapedChar (c : Char) : List Char :=
  if c = '"' then ['\\', '"']
  else if c = '\\' then ['\\', '\\']
  else if c = '\n' then ['\\', 'n']
  else if c = '\r' then ['\\', 'r']
  else if c = '\t' then ['\\', 't']
  else if c.toNat = 8 then ['\\', 'b']
  else if c.toNat = 12 then ['\\', 'f']
  else if c.toNat < 32 then ['\\', 'u', '0', '0', hexDigit (c.toNat / 16), hexDigit c.toNat]
  else [c]

def stringText (s : String) : String :=
  "\"" ++ String.ofList (s.toList.flatMap escapedChar) ++ "\""

mutual
def text : Wire → String
  | .null => "null"
  | .bool b => if b then "true" else "false"
  | .integer n => toString n
  | .double bits => Double.text bits
  | .string s => stringText s
  | .array items => "[" ++ ",".intercalate (itemTexts items) ++ "]"
  | .object fields => "\x7b" ++ ",".intercalate (fieldTexts fields) ++ "\x7d"

def itemTexts : List Wire → List String
  | [] => []
  | w :: rest => text w :: itemTexts rest

def fieldTexts : List (String × Wire) → List String
  | [] => []
  | (name, w) :: rest => (stringText name ++ ":" ++ text w) :: fieldTexts rest
end

/-- Two doubles are equal as numbers when their bits agree or both are a zero. -/
def sameDouble (a b : UInt64) : Bool :=
  a == b || (a.toNat % pow2 63 == 0 && b.toNat % pow2 63 == 0)

mutual
def eqv : Wire → Wire → Bool
  | .null, .null => true
  | .bool a, .bool b => a == b
  | .integer a, .integer b => a == b
  | .double a, .double b => sameDouble a b
  | .string a, .string b => a == b
  | .array xs, .array ys => eqvItems xs ys
  | .object xs, .object ys => eqvFields xs ys
  | _, _ => false

def eqvItems : List Wire → List Wire → Bool
  | [], [] => true
  | x :: xs, y :: ys => eqv x y && eqvItems xs ys
  | _, _ => false

def eqvFields : List (String × Wire) → List (String × Wire) → Bool
  | [], [] => true
  | (a, x) :: xs, (b, y) :: ys => a == b && eqv x y && eqvFields xs ys
  | _, _ => false
end

end Wire

end LedgerScript
