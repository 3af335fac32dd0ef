import LedgerScript.Language.Vocabulary

/-!
# Evaluation of value expressions

An expression is answered by the family that its head word names. Arguments that are lists are
evaluated in turn, so `depth` bounds how deep evaluations may nest. What an operation
is given is never larger than the expression itself, and one level more than the size
of the expression is always enough, unless operations evaluate expressions of their own. The
language sets no limit to those, and they could nest without end. Here they have 2000 further
levels, the `reserve`, and an evaluation that goes deeper than this fails as too deep: that is
where evaluation departs from an unlimited one, and only such operations can come to it.
-/

set_option autoImplicit false

namespace LedgerScript

namespace Vocabulary

variable {σ : Type}

def tooDeep : String := "value expressions nest too deep"

def evaluateWithin (v : Vocabulary σ) (w : World) (lastFailure : Option Failure) :
    Nat → Event → LedgerM σ ArgumentError Value
  | 0, e => throw (.evaluation e.text tooDeep)
  | depth + 1, e => do
    let scope : Scope σ := ⟨w, lastFailure, evaluateWithin v w lastFailure depth⟩
    let e := e.unwrapped
    let (family, tokens) := v.valueRoute e
    let (op, b) ← (family.select scope tokens).restate (.evaluation e.text ·.message)
    (op.fetch scope b).restate (.evaluation e.text ·.message)

/-- Levels of nesting for the expressions that operations evaluate on their own account. -/
def reserve : Nat := 2000

def evaluate (v : Vocabulary σ) (w : World) (lastFailure : Option Failure) (e : Event) :
    LedgerM σ ArgumentError Value :=
  evaluateWithin v w lastFailure (e.size + 1 + reserve) e

def scope (v : Vocabulary σ) (w : World) (lastFailure : Option Failure) : Scope σ :=
  ⟨w, lastFailure, v.evaluate w lastFailure⟩

end Vocabulary

end LedgerScript
