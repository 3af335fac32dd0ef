import LedgerScript.World.Basic

/-!
# Histories

The versions of a world in the order in which they came about, numbered from zero. Each
update of a version makes a new one, even where nothing differs.
-/

set_option autoImplicit false

namespace LedgerScript

structure History where
  first : World
  later : List World

namespace History

def ofWorld (w : World) : History := ⟨w, []⟩

def version? (h : History) (n : Nat) : Option World := (h.first :: h.later)[n]?

def latest (h : History) : World := h.later.getLast?.getD h.first

def pick (h : History) (number : Option Nat) : World := (number.bind h.version?).getD h.latest

def extend (h : History) (w : World) : History := { h with later := h.later ++ [w] }

def sameVersion (m n : Nat) : Bool := m == n

def sameState (h : History) (m n : Nat) : Bool := (h.pick (some m)).eqv (h.pick (some n))

end History

end LedgerScript
