import LedgerScript.Syntax.Printing
import LedgerScript.Quantity.Literal
import LedgerScript.Text.Hex
import LedgerScript.Text.Letter

/-!
# Values

What an argument is read as and what a value expression gives. Equality disregards the
letter case of addresses and the style of numbers.
-/

set_option autoImplicit false

namespace LedgerScript

/-- A literal address is `0x` or `0X` and forty hexadecimal digits. -/
def isAddress (s : String) : Bool :=
  match s.toList with
  | '0' :: x :: digits => (x == 'x' || x == 'X') && digits.length == 40 && digits.all Text.isHexDigit
  | _ => false

inductive Value where
  | address (a : String)
  | number (n : Number)
  | string (s : String)
  | bool (b : Bool)
  | list (items : List Value)
  | event (e : Event)
  | nothing

namespace Value

instance : Inhabited Value := ⟨.nothing⟩

def typeName : Value → String
  | .address _ => "Address"
  | .number _ => "Number"
  | .string _ => "String"
  | .bool _ => "Bool"
  | .list _ => "List"
  | .event _ => "Event"
  | .nothing => "Nothing"

def isNothing : Value → Bool
  | .nothing => true
  | _ => false

def number? : Value → Option Number
  | .number n => some n
  | _ => none

def address? : Value → Option String
  | .address a => some a
  | _ => none

def string? : Value → Option String
  | .string s => some s
  | _ => none

def bool? : Value → Option Bool
  | .bool b => some b
  | _ => none

def list? : Value → Option (List Value)
  | .list items => some items
  | _ => none

mutual
def eqv : Value → Value → Bool
  | .address a, .address b => Text.sameWord a b
  | .number a, .number b => a.eqv b
  | .string a, .string b => a == b
  | .bool a, .bool b => a == b
  | .list xs, .list ys => eqvAll xs ys
  | .event a, .event b => a == b
  | .nothing, .nothing => true
  | _, _ => false

def eqvAll : List Value → List Value → Bool
  | [], [] => true
  | x :: xs, y :: ys => eqv x y && eqvAll xs ys
  | _, _ => false
end

mutual
/-- The order of two values of one type: none for different types, for different events, and
for lists whose first unequal items have none. A list comes before its extensions. -/
def compare? : Value → Value → Option Ordering
  | .number a, .number b => some (a.cmp b)
  | .string a, .string b => some (compare a b)
  | .address a, .address b => some (compare a.toLower b.toLower)
  | .bool a, .bool b => some (compare a b)
  | .nothing, .nothing => some .eq
  | .list xs, .list ys => compareAll? xs ys
  | .event a, .event b => if a = b then some .eq else none
  | _, _ => none

def compareAll? : List Value → List Value → Option Ordering
  | [], [] => some .eq
  | [], _ :: _ => some .lt
  | _ :: _, [] => some .gt
  | x :: xs, y :: ys =>
    match compare? x y with
    | some .eq => compareAll? xs ys
    | other => other
end

mutual
def display : Value → String
  | .address a => a
  | .number n => n.render
  | .string s => s
  | .bool b => if b then "True" else "False"
  | .list items => "[" ++ ", ".intercalate (displayAll items) ++ "]"
  | .event e => e.text
  | .nothing => "Nothing"

def displayAll : List Value → List String
  | [] => []
  | v :: rest => display v :: displayAll rest
end

end Value

end LedgerScript
