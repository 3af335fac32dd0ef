/-!
# Events

An event is what a line of a script says before anything is known of its
meaning: a word, or an ordered list of events.
-/

set_option autoImplicit false

namespace LedgerScript

inductive Event where
  | atom (text : String)
  | list (items : List Event)

namespace Event

instance : Inhabited Event := ⟨.list []⟩

mutual
def decEq : (a b : Event) → Decidable (a = b)
  | .atom s, .atom t => if h : s = t then .isTrue (h ▸ rfl) else .isFalse (fun e => h (by injection e))
  | .list xs, .list ys =>
    match decEqList xs ys with
    | .isTrue h => .isTrue (h ▸ rfl)
    | .isFalse h => .isFalse (fun e => h (by injection e))
  | .atom _, .list _ => .isFalse (fun e => by injection e)
  | .list _, .atom _ => .isFalse (fun e => by injection e)

def decEqList : (xs ys : List Event) → Decidable (xs = ys)
  | [], [] => .isTrue rfl
  | [], _ :: _ => .isFalse (fun e => by injection e)
  | _ :: _, [] => .isFalse (fun e => by injection e)
  | x :: xs, y :: ys =>
    match decEq x y, decEqList xs ys with
    | .isTrue h, .isTrue k => .isTrue (h ▸ k ▸ rfl)
    | .isFalse h, _ => .isFalse (fun e => h (by injection e))
    | _, .isFalse k => .isFalse (fun e => k (by injection e))
end

instance : DecidableEq Event := decEq

def atom? : Event → Option String
  | .atom s => some s
  | .list _ => none

def list? : Event → Option (List Event)
  | .list items => some items
  | .atom _ => none

def isAtom : Event → Bool
  | .atom _ => true
  | .list _ => false

/-- The positional tokens: a list's items, or the atom alone. -/
def tokens : Event → List Event
  | .list items => items
  | .atom s => [.atom s]

def head? (e : Event) : Option String := e.tokens.head?.bind atom?

/-- The event inside lists that hold one list and nothing else. -/
def unwrapped : Event → Event
  | .list [.list items] => unwrapped (.list items)
  | e => e

theorem unwrapped_atom (text : String) : (atom text).unwrapped = .atom text := by
  rw [unwrapped]
  intro items h
  cases h

theorem unwrapped_wrapped (items : List Event) :
    (list [.list items]).unwrapped = (list items).unwrapped := by
  rw [unwrapped]

theorem unwrapped_of_word (word : String) (rest : List Event) :
    (list (.atom word :: rest)).unwrapped = .list (.atom word :: rest) := by
  rw [unwrapped]
  intro items h
  cases h

mutual
/-- The number of atoms and lists in an event. -/
def size : Event → Nat
  | .atom _ => 1
  | .list items => sizeAll items + 1

def sizeAll : List Event → Nat
  | [] => 0
  | e :: rest => size e + sizeAll rest
end

theorem size_pos (e : Event) : 0 < e.size := by
  cases e <;> simp [size]

theorem size_unwrapped_le (e : Event) : e.unwrapped.size ≤ e.size := by
  fun_induction unwrapped e with
  | case1 items ih => simp only [size, sizeAll] at *; omega
  | case2 e _ => exact Nat.le_refl _

theorem sizeAll_drop_le (n : Nat) (es : List Event) : sizeAll (es.drop n) ≤ sizeAll es := by
  induction es generalizing n with
  | nil => simp [sizeAll]
  | cons e rest ih =>
    cases n with
    | zero => exact Nat.le_refl _
    | succ n =>
      have := ih n
      simp only [List.drop_succ_cons, sizeAll]
      omega

end Event

end LedgerScript
