import LedgerScript.Value.Basic
import LedgerScript.Wire.Basic

/-!
# Values on the wire

Numbers travel as decimal strings, so a string is read by its look: an address, a plain
decimal, or text. Objects are kept as their JSON text.
-/

set_option autoImplicit false

namespace LedgerScript.Value

mutual
def toWire : Value → Wire
  | .address a => .string a
  | .number n => .string n.plainText
  | .string s => .string s
  | .bool b => .bool b
  | .list items => .array (toWires items)
  | .event e => .string e.text
  | .nothing => .null

def toWires : List Value → List Wire
  | [] => []
  | v :: rest => toWire v :: toWires rest
end

def plainNumber? (s : String) : Option Number :=
  (Number.parse? s).filter (fun n => n.style == .plain)

def ofText (s : String) : Value :=
  if isAddress s then .address s
  else
    match plainNumber? s with
    | some n => .number n
    | none => .string s

/-- A JSON number by its text, which counts in any style. -/
def ofNumberText (s : String) : Value :=
  match Number.parse? s with
  | some n => .number n
  | none => .string s

mutual
def ofWire : Wire → Value
  | .null => .nothing
  | .bool b => .bool b
  | .integer n => ofNumberText (toString n)
  | .double bits => ofNumberText (Double.text bits)
  | .string s => ofText s
  | .array items => .list (ofWires items)
  | .object fields => .string (Wire.object fields).text

def ofWires : List Wire → List Value
  | [] => []
  | w :: rest => ofWire w :: ofWires rest
end

end LedgerScript.Value
