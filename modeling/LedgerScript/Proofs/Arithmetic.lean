import LedgerScript.Proofs.Values

/-!
# Arithmetic

The core operators and numeric literals evaluate to what one computes from the expression alone:
neither the world nor the other operations of the vocabulary count, as long as no family of
values has the name of a word in the expression.
-/

set_option autoImplicit false

namespace LedgerScript

namespace Arithmetic

inductive Unary where
  | exactly
  | exp

inductive Binary where
  | add
  | sub
  | mul
  | div
  | min
  | max

namespace Unary

def verb : Unary → String
  | exactly => "Exactly"
  | exp => "Exp"

def apply : Unary → Number → Except NumericError Number
  | exactly => .ok
  | exp => Number.exp

end Unary

namespace Binary

def verb : Binary → String
  | add => "Add"
  | sub => "Sub"
  | mul => "Mul"
  | div => "Div"
  | min => "Min"
  | max => "Max"

def apply : Binary → Number → Number → Except NumericError Number
  | add => Number.add
  | sub => Number.sub
  | mul => Number.mul
  | div => Number.div
  | min => fun a b => .ok (a.min b)
  | max => fun a b => .ok (a.max b)

end Binary

end Arithmetic

/-- Arithmetic expressions over numeric literals. -/
inductive Arithmetic where
  | literal (token : String)
  | unary (operator : Arithmetic.Unary) (operand : Arithmetic)
  | binary (operator : Arithmetic.Binary) (left right : Arithmetic)

namespace Event

mutual
def atoms : Event → List String
  | .atom text => [text]
  | .list items => atomsAll items

def atomsAll : List Event → List String
  | [] => []
  | e :: rest => e.atoms ++ atomsAll rest
end

end Event

namespace Arithmetic

def value : Arithmetic → Except NumericError Number
  | literal token => Number.parse token
  | unary operator operand => do operator.apply (← operand.value)
  | binary operator left right => do operator.apply (← left.value) (← right.value)

/-- How an expression may be written: verbs in any letter case, operands that are no words in
parentheses, and further parentheses around any part. -/
inductive Written : Arithmetic → Event → Prop
  | literal (token : String) : Written (literal token) (.atom token)
  | unary {operator : Unary} {operand : Arithmetic} {word : String} {e : Event}
      (verb : Text.sameWord word operator.verb = true) (written : Written operand e) :
      Written (unary operator operand) (.list [.atom word, e])
  | binary {operator : Binary} {left right : Arithmetic} {word : String} {e f : Event}
      (verb : Text.sameWord word operator.verb = true) (written : Written left e)
      (written' : Written right f) :
      Written (binary operator left right) (.list [.atom word, e, f])
  | wrapped {x : Arithmetic} {e : Event} (written : Written x e) : Written x (.list [e])

end Arithmetic

variable {σ : Type}

namespace Standard

open Arithmetic (Unary Binary)

theorem unary_apply {op : Number → Except NumericError Number} {b : Arguments} {n : Number}
    (hn : b.number "n" = .ok n) (scope : Scope σ) (s : σ) :
    unary op scope b s = (numeric (op n), s) := by
  rw [unary, hn]
  rfl

theorem binary_apply {op : Number → Number → Except NumericError Number} {b : Arguments}
    {n m : Number} (hn : b.number "a" = .ok n) (hm : b.number "b" = .ok m) (scope : Scope σ)
    (s : σ) : binary op scope b s = (numeric (op n m), s) := by
  rw [binary, hn, hm]
  rfl

theorem plain_numberParam (name : String) : (numberParam name : Param σ).Plain := ⟨rfl, rfl, rfl⟩

theorem plain_numberSingle : ∀ p ∈ [(numberParam "n" : Param σ)], p.Plain := by
  rw [List.forall_mem_singleton]
  exact plain_numberParam "n"

theorem plain_numberPair : ∀ p ∈ (numberPair : List (Param σ)), p.Plain := by
  rw [numberPair, List.forall_mem_cons, List.forall_mem_singleton]
  exact ⟨plain_numberParam "a", plain_numberParam "b"⟩

theorem exists_unary (o : Unary) :
    ∃ op ∈ (coreValues : Family σ).regular, op.verb = [o.verb] ∧
      op.params = [numberParam "n"] ∧ op.handler = .fetcher (unary o.apply) := by
  cases o with
  | exactly => exact ⟨_, List.mem_of_getElem? (i := 0) rfl, rfl, rfl, rfl⟩
  | exp => exact ⟨_, List.mem_of_getElem? (i := 1) rfl, rfl, rfl, rfl⟩

theorem exists_binary (o : Binary) :
    ∃ op ∈ (coreValues : Family σ).regular, op.verb = [o.verb] ∧
      op.params = numberPair ∧ op.handler = .fetcher (binary o.apply) := by
  cases o with
  | add => exact ⟨_, List.mem_of_getElem? (i := 2) rfl, rfl, rfl, rfl⟩
  | sub => exact ⟨_, List.mem_of_getElem? (i := 3) rfl, rfl, rfl, rfl⟩
  | mul => exact ⟨_, List.mem_of_getElem? (i := 4) rfl, rfl, rfl, rfl⟩
  | div => exact ⟨_, List.mem_of_getElem? (i := 5) rfl, rfl, rfl, rfl⟩
  | min => exact ⟨_, List.mem_of_getElem? (i := 6) rfl, rfl, rfl, rfl⟩
  | max => exact ⟨_, List.mem_of_getElem? (i := 7) rfl, rfl, rfl, rfl⟩

end Standard

namespace Arithmetic

variable {v : Vocabulary σ} {w : World} {lastFailure : Option Failure} {depth : Nat}
  {x y : Arithmetic} {e f : Event} {n m k : Number} {word : String} {s : σ}

theorem exists_value_of_unary {operator : Unary} (h : (unary operator x).value = .ok k) :
    ∃ n, x.value = .ok n ∧ operator.apply n = .ok k := by
  rw [value] at h
  exact exists_of_bind_eq_ok h

theorem exists_values_of_binary {operator : Binary} (h : (binary operator x y).value = .ok k) :
    ∃ n m, x.value = .ok n ∧ y.value = .ok m ∧ operator.apply n m = .ok k := by
  rw [value] at h
  obtain ⟨n, hn, h⟩ := exists_of_bind_eq_ok h
  obtain ⟨m, hm, applied⟩ := exists_of_bind_eq_ok h
  exact ⟨n, m, hn, hm, applied⟩

def answer (e : Event) : Except NumericError Number → Except ArgumentError Value
  | .ok n => .ok (.number n)
  | .error cause => .error (.evaluation e.text cause.message)

theorem mapError_numeric (e : Event) (r : Except NumericError Number) :
    (Standard.numeric r).mapError (fun f => .evaluation e.text f.message) = answer e r := by
  cases r <;> rfl

theorem read_of_written (written : Written x e) (hx : x.value = .ok n) (scope : Scope σ)
    (evaluated : scope.evaluate e s = (.ok (.number n), s)) :
    Shape.number.read scope e s = (.ok (.number n), s) := by
  cases e with
  | atom token =>
    cases written
    rw [value] at hx
    rw [Shape.read, hx]
    rfl
  | list es =>
    rw [Shape.read, Shape.evaluateAs, LedgerM.bind_ok evaluated]
    rfl

theorem evaluateWithin_unary {operator : Unary} (verb : Text.sameWord word operator.verb = true)
    (free : v.valueFamily? word = none)
    (read : Shape.number.read (v.scopeWithin w lastFailure depth) e s = (.ok (.number n), s)) :
    v.evaluateWithin w lastFailure (depth + 1) (.list [.atom word, e]) s =
      (answer (.list [.atom word, e]) (operator.apply n), s) := by
  obtain ⟨op, mem, hverb, hparams, hhandler⟩ := @Standard.exists_unary σ operator
  have plain : ∀ p ∈ op.params, p.Plain := by
    rw [hparams]
    exact Standard.plain_numberSingle
  have taken : Arguments.Taken (v.scopeWithin w lastFailure depth) op.params [e] .empty
      (Fields.empty.insert "n" (.number n)) s s := by
    rw [hparams]
    exact .cons read (.nil _ s)
  rw [Vocabulary.evaluateWithin_core mem hverb verb free plain taken, LedgerM.restate_apply,
    Operation.fetch, hhandler]
  dsimp only
  rw [Standard.unary_apply (Arguments.number_of_get? rfl), mapError_numeric]

theorem evaluateWithin_binary {operator : Binary}
    (verb : Text.sameWord word operator.verb = true) (free : v.valueFamily? word = none)
    (read : Shape.number.read (v.scopeWithin w lastFailure depth) e s = (.ok (.number n), s))
    (read' : Shape.number.read (v.scopeWithin w lastFailure depth) f s = (.ok (.number m), s)) :
    v.evaluateWithin w lastFailure (depth + 1) (.list [.atom word, e, f]) s =
      (answer (.list [.atom word, e, f]) (operator.apply n m), s) := by
  obtain ⟨op, mem, hverb, hparams, hhandler⟩ := @Standard.exists_binary σ operator
  have plain : ∀ p ∈ op.params, p.Plain := by
    rw [hparams]
    exact Standard.plain_numberPair
  have taken : Arguments.Taken (v.scopeWithin w lastFailure depth) op.params [e, f] .empty
      ((Fields.empty.insert "a" (.number n)).insert "b" (.number m)) s s := by
    rw [hparams]
    exact .cons read (.cons read' (.nil _ s))
  rw [Vocabulary.evaluateWithin_core mem hverb verb free plain taken, LedgerM.restate_apply,
    Operation.fetch, hhandler]
  dsimp only
  rw [Standard.binary_apply (Arguments.number_of_get? rfl) (Arguments.number_of_get? rfl),
    mapError_numeric]

theorem evaluateWithin_of_written (s : σ) (written : Written x e)
    (free : ∀ word ∈ e.atoms, v.valueFamily? word = none) (hx : x.value = .ok n)
    (enough : e.size ≤ depth) :
    v.evaluateWithin w lastFailure depth e s = (.ok (.number n), s) := by
  -- Each node spends one level, and its operands are smaller than what is left.
  induction written generalizing n depth with
  | literal token =>
    rw [Event.size] at enough
    obtain ⟨d, rfl⟩ := Nat.exists_eq_add_of_le' enough
    exact Vocabulary.evaluateWithin_literal (free token List.mem_cons_self) hx s
  | @unary operator operand word e verb written ih =>
    obtain ⟨m, hm, applied⟩ := exists_value_of_unary hx
    simp only [Event.size, Event.sizeAll] at enough
    simp only [Event.atoms, Event.atomsAll, List.mem_append, List.mem_singleton] at free
    obtain ⟨d, rfl⟩ : ∃ d, depth = d + 1 := ⟨depth - 1, by omega⟩
    have evaluated : v.evaluateWithin w lastFailure d e s = (.ok (.number m), s) :=
      ih (fun a ha => free a (.inr (.inl ha))) hm (by omega)
    have read := read_of_written written hm (v.scopeWithin w lastFailure d) evaluated
    rw [evaluateWithin_unary verb (free word (.inl rfl)) read, applied]
    rfl
  | @binary operator left right word e f verb written written' ih ih' =>
    obtain ⟨m, k, hm, hk, applied⟩ := exists_values_of_binary hx
    simp only [Event.size, Event.sizeAll] at enough
    simp only [Event.atoms, Event.atomsAll, List.mem_append, List.mem_singleton] at free
    obtain ⟨d, rfl⟩ : ∃ d, depth = d + 1 := ⟨depth - 1, by omega⟩
    have evaluated : v.evaluateWithin w lastFailure d e s = (.ok (.number m), s) :=
      ih (fun a ha => free a (.inr (.inl ha))) hm (by omega)
    have evaluated' : v.evaluateWithin w lastFailure d f s = (.ok (.number k), s) :=
      ih' (fun a ha => free a (.inr (.inr (.inl ha)))) hk (by omega)
    have read := read_of_written written hm (v.scopeWithin w lastFailure d) evaluated
    have read' := read_of_written written' hk (v.scopeWithin w lastFailure d) evaluated'
    rw [evaluateWithin_binary verb (free word (.inl rfl)) read read', applied]
    rfl
  | @wrapped x e written ih =>
    simp only [Event.size, Event.sizeAll] at enough
    simp only [Event.atoms, Event.atomsAll, List.append_nil] at free
    obtain ⟨d, rfl⟩ : ∃ d, depth = d + 1 := ⟨depth - 1, by omega⟩
    exact Vocabulary.evaluateWithin_wrapped (ih free hx (by omega))

/-- Evaluating a written expression gives the number that the expression comes to, and leaves the
ledger as it was. -/
theorem evaluate_of_written (v : Vocabulary σ) (w : World) (lastFailure : Option Failure) (s : σ)
    {x : Arithmetic} {e : Event} {n : Number} (written : Written x e)
    (free : ∀ word ∈ e.atoms, v.valueFamily? word = none) (hx : x.value = .ok n) :
    v.evaluate w lastFailure e s = (.ok (.number n), s) := by
  have enough : e.size ≤ e.size + 1 + Vocabulary.reserve := by omega
  exact evaluateWithin_of_written s written free hx enough

def barVocabulary : Vocabulary Unit :=
  Vocabulary.bare.addValues { (Standard.coreValues : Family Unit) with name := "Bar" }

theorem evaluate_of_written_nested :
    let x := binary .add (literal "2") (binary .mul (literal "3") (literal "1e1"))
    let e : Event := .list [.list [.atom "aDD", .list [.atom "2"],
      .list [.atom "MUL", .atom "3", .atom "1e1"]]]
    x.value = .ok (.ofInt 32) ∧
      barVocabulary.evaluate (World.start .standard) none e () =
        (.ok (.number (.ofInt 32)), ()) := by
  intro x e
  have sum : Text.sameWord "aDD" Binary.add.verb = true := by cbv
  have product : Text.sameWord "MUL" Binary.mul.verb = true := by cbv
  have written : Written x e := .wrapped (.binary sum (.wrapped (.literal "2"))
    (.binary product (.literal "3") (.literal "1e1")))
  have free : ∀ word ∈ e.atoms, barVocabulary.valueFamily? word = none := by
    intro word h
    have hword : word ∈ ["aDD", "2", "MUL", "3", "1e1"] := h
    fin_cases hword <;> rfl
  have hx : x.value = .ok (.ofInt 32) := by decide +kernel
  exact ⟨hx, evaluate_of_written barVocabulary (World.start .standard) none () written free hx⟩

end Arithmetic

end LedgerScript
