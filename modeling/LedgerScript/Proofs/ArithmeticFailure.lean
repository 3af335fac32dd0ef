import LedgerScript.Proofs.Arithmetic

/-!
# Arithmetic that fails

The failure of an operator's own computation is the failure of its evaluation. An operand that
fails is another matter: the operator refuses it, and an expression that no operation takes is
read as a literal, of which its first word is all that counts. So a failure gets no further than
to the operator that awaits the number; what comes out of that one is the address or the text that
its verb stands for.
-/

set_option autoImplicit false

namespace LedgerScript

variable {σ : Type}

namespace Event

theorem unwrapped_unwrapped (e : Event) : e.unwrapped.unwrapped = e.unwrapped := by
  fun_induction unwrapped e with
  | case1 items ih => exact ih
  | case2 e h => rw [unwrapped.eq_2 e h]

theorem atoms_unwrapped (e : Event) : e.unwrapped.atoms = e.atoms := by
  fun_induction unwrapped e with
  | case1 items ih => rw [ih, atoms, atoms, atomsAll, atomsAll, List.append_nil, atoms]
  | case2 e _ => rfl

theorem mem_atoms_of_tokens {e : Event} {word : String} {rest : List Event}
    (h : e.tokens = .atom word :: rest) : word ∈ e.atoms := by
  cases e with
  | atom text =>
    cases h
    exact List.mem_cons_self
  | list items =>
    rw [tokens] at h
    rw [h, atoms, atomsAll, atoms]
    exact List.mem_cons_self

end Event

namespace Vocabulary

theorem evaluateWithin_unwrapped (v : Vocabulary σ) (w : World) (lastFailure : Option Failure)
    (depth : Nat) (e : Event) :
    v.evaluateWithin w lastFailure (depth + 1) e =
      v.evaluateWithin w lastFailure (depth + 1) e.unwrapped := by
  rw [evaluateWithin, evaluateWithin, Event.unwrapped_unwrapped]

end Vocabulary

namespace Arithmetic

def operands : Arithmetic → List Arithmetic
  | literal _ => []
  | unary _ operand => [operand]
  | binary _ left right => [left, right]

theorem exists_literal {x : Arithmetic} (h : x.operands = []) : ∃ token, x = literal token := by
  cases x with
  | literal token => exact ⟨token, rfl⟩
  | unary operator operand => cases h
  | binary operator left right => cases h

theorem operands_induction {motive : Arithmetic → Prop}
    (step : ∀ x, (∀ y ∈ x.operands, motive y) → motive x) (x : Arithmetic) : motive x := by
  induction x with
  | literal token => exact step _ (List.forall_mem_nil motive)
  | unary operator operand ih => exact step _ (List.forall_mem_singleton.mpr ih)
  | binary operator left right ih ih' =>
    exact step _ (List.forall_mem_cons.mpr ⟨ih, List.forall_mem_singleton.mpr ih'⟩)

/-- How an expression is written when no parentheses stand around the whole. -/
def Opened : Arithmetic → Event → Prop
  | literal token, e => e.tokens = [.atom token]
  | unary operator operand, e =>
    ∃ word f, Text.sameWord word operator.verb = true ∧ Written operand f ∧
      e = .list [.atom word, f]
  | binary operator left right, e =>
    ∃ word f g, Text.sameWord word operator.verb = true ∧ Written left f ∧ Written right g ∧
      e = .list [.atom word, f, g]

theorem Written.opened {x : Arithmetic} {e : Event} (written : Written x e) :
    Opened x e.unwrapped := by
  induction written with
  | literal token => rw [Opened, Event.unwrapped_atom, Event.tokens]
  | unary verb written ih => exact ⟨_, _, verb, written, Event.unwrapped_of_word _ _⟩
  | binary verb written written' ih ih' =>
    exact ⟨_, _, _, verb, written, written', Event.unwrapped_of_word _ _⟩
  | @wrapped x e written ih =>
    cases e with
    | atom token =>
      cases written
      rfl
    | list items => rwa [Event.unwrapped_wrapped]

theorem literal_of_unary {operator : Unary} {word : String}
    (verb : Text.sameWord word operator.verb = true) (w : World) :
    Shape.literal w word = (w.resolve? word).elim (.string word) .address := by
  cases operator <;>
    exact Standard.literal_of_verb (by decide) verb (by decide) (by decide) w

theorem literal_of_binary {operator : Binary} {word : String}
    (verb : Text.sameWord word operator.verb = true) (w : World) :
    Shape.literal w word = (w.resolve? word).elim (.string word) .address := by
  cases operator <;>
    exact Standard.literal_of_verb (by decide) verb (by decide) (by decide) w

variable {v : Vocabulary σ} {w : World} {lastFailure : Option Failure} {depth : Nat}
  {x : Arithmetic} {e f : Event} {word : String} {c : ArgumentError} {s : σ}

theorem evaluateWithin_unary_refused {operator : Unary}
    (verb : Text.sameWord word operator.verb = true) (free : v.valueFamily? word = none)
    (read : Shape.number.read (v.scopeWithin w lastFailure depth) e s = (.error c, s)) :
    v.evaluateWithin w lastFailure (depth + 1) (.list [.atom word, e]) s =
      (.ok ((w.resolve? word).elim (.string word) .address), s) := by
  obtain ⟨op, mem, hverb, hparams, -⟩ := @Standard.exists_unary σ operator
  have plain : ∀ p ∈ op.params, p.Plain := by
    rw [hparams]
    exact Standard.plain_numberSingle
  have refused : Arguments.Refused (v.scopeWithin w lastFailure depth) op.params [e] s s := by
    rw [hparams]
    exact .unread rfl read
  rw [Vocabulary.evaluateWithin_refused mem hverb verb free plain refused, literal_of_unary verb]

theorem evaluateWithin_binary_refused {operator : Binary}
    (verb : Text.sameWord word operator.verb = true) (free : v.valueFamily? word = none)
    (refused : Arguments.Refused (v.scopeWithin w lastFailure depth) Standard.numberPair [e, f]
      s s) :
    v.evaluateWithin w lastFailure (depth + 1) (.list [.atom word, e, f]) s =
      (.ok ((w.resolve? word).elim (.string word) .address), s) := by
  obtain ⟨op, mem, hverb, hparams, -⟩ := @Standard.exists_binary σ operator
  have plain : ∀ p ∈ op.params, p.Plain := by
    rw [hparams]
    exact Standard.plain_numberPair
  rw [← hparams] at refused
  rw [Vocabulary.evaluateWithin_refused mem hverb verb free plain refused,
    literal_of_binary verb]

/-- What the evaluation of an operator gives, by its operands and the word that it is written
with: an operand without a value leaves nothing but that word. -/
def outcome (w : World) (word : String) (e : Event) (x : Arithmetic) :
    Except ArgumentError Value :=
  if x.operands.all (·.value.isOk) then answer e x.value
  else .ok ((w.resolve? word).elim (.string word) .address)

def ReadAs (scope : Scope σ) (s : σ) (e : Event) : Except NumericError Number → Prop
  | .ok n => Shape.number.read scope e s = (.ok (.number n), s)
  | .error _ => ∃ c, Shape.number.read scope e s = (.error c, s)

theorem evaluateWithin_of_opened (opened : Opened x e) (operator : x.operands ≠ [])
    (free : ∀ word ∈ e.atoms, v.valueFamily? word = none) (enough : e.size ≤ depth + 1)
    (reads : ∀ y ∈ x.operands, ∀ f, Written y f →
      (∀ word ∈ f.atoms, v.valueFamily? word = none) → f.size ≤ depth →
      ReadAs (v.scopeWithin w lastFailure depth) s f y.value) :
    ∃ word args, e = .list (.atom word :: args) ∧
      v.evaluateWithin w lastFailure (depth + 1) e s = (outcome w word e x, s) := by
  cases x with
  | literal token => exact absurd rfl operator
  | unary operator operand =>
    obtain ⟨word, f, verb, written, rfl⟩ := opened
    simp only [Event.size, Event.sizeAll] at enough
    simp only [Event.atoms, Event.atomsAll, List.mem_append, List.mem_singleton] at free
    have hword := free word (.inl rfl)
    have read := reads operand List.mem_cons_self f written
      (fun a ha => free a (.inr (.inl ha))) (by omega)
    refine ⟨word, [f], rfl, ?_⟩
    rw [outcome, operands, List.all_cons, List.all_nil, value]
    cases hn : operand.value with
    | ok n =>
      rw [hn] at read
      exact evaluateWithin_unary verb hword read
    | error cause =>
      rw [hn] at read
      obtain ⟨c, hc⟩ := read
      exact evaluateWithin_unary_refused verb hword hc
  | binary operator left right =>
    obtain ⟨word, f, g, verb, written, written', rfl⟩ := opened
    simp only [Event.size, Event.sizeAll] at enough
    simp only [Event.atoms, Event.atomsAll, List.mem_append, List.mem_singleton] at free
    have hword := free word (.inl rfl)
    have read := reads left List.mem_cons_self f written
      (fun a ha => free a (.inr (.inl ha))) (by omega)
    have read' := reads right (List.mem_cons_of_mem left List.mem_cons_self) g written'
      (fun a ha => free a (.inr (.inr (.inl ha)))) (by omega)
    refine ⟨word, [f, g], rfl, ?_⟩
    rw [outcome, operands, List.all_cons, List.all_cons, List.all_nil, value]
    cases hn : left.value with
    | error cause =>
      rw [hn] at read
      obtain ⟨c, hc⟩ := read
      exact evaluateWithin_binary_refused verb hword (.unread rfl hc)
    | ok n =>
      rw [hn] at read
      cases hm : right.value with
      | error cause =>
        rw [hm] at read'
        obtain ⟨c, hc⟩ := read'
        exact evaluateWithin_binary_refused verb hword (.later read (.unread rfl hc))
      | ok m =>
        rw [hm] at read'
        exact evaluateWithin_binary verb hword read read'

theorem outcome_ne_number (failed : ∀ n, x.value ≠ .ok n) (n : Number) :
    outcome w word e x ≠ .ok (.number n) := by
  intro h
  rw [outcome] at h
  split_ifs at h with hall
  · cases hx : x.value with
    | ok m => exact failed m hx
    | error cause =>
      rw [hx] at h
      cases h
  · cases hr : w.resolve? word with
    | none =>
      rw [hr] at h
      cases h
    | some a =>
      rw [hr] at h
      cases h

theorem exists_read_error {scope : Scope σ} {items : List Event} {r : Except ArgumentError Value}
    (evaluated : scope.evaluate (.list items) s = (r, s)) (h : ∀ n, r ≠ .ok (.number n)) :
    ∃ c, Shape.number.read scope (.list items) s = (.error c, s) := by
  rw [Shape.read, Shape.evaluateAs]
  cases r with
  | error c => exact ⟨c, LedgerM.bind_error evaluated _⟩
  | ok value =>
    have hvalue : ¬ value.number?.isSome = true := by
      cases value with
      | number n => exact absurd rfl (h n)
      | _ => exact Bool.false_ne_true
    rw [LedgerM.bind_ok evaluated, if_neg hvalue]
    exact ⟨_, rfl⟩

theorem readAs_of_written (s : σ) (written : Written x e)
    (free : ∀ word ∈ e.atoms, v.valueFamily? word = none) (enough : e.size ≤ depth)
    (failing : (∀ n, x.value ≠ .ok n) → ∃ r, v.evaluateWithin w lastFailure depth e s = (r, s) ∧
      ∀ n, r ≠ .ok (.number n)) :
    ReadAs (v.scopeWithin w lastFailure depth) s e x.value := by
  cases hx : x.value with
  | ok n =>
    have evaluated : v.evaluateWithin w lastFailure depth e s = (.ok (.number n), s) :=
      evaluateWithin_of_written s written free hx enough
    exact read_of_written written hx (v.scopeWithin w lastFailure depth) evaluated
  | error cause =>
    cases e with
    | atom token =>
      cases written
      rw [value] at hx
      refine ⟨.numeric cause, ?_⟩
      rw [Shape.read, hx]
      rfl
    | list items =>
      have failed : ∀ n, x.value ≠ .ok n := by
        intro n hn
        rw [hx] at hn
        cases hn
      obtain ⟨r, evaluated, hr⟩ := failing failed
      exact exists_read_error evaluated hr

theorem evaluateWithin_of_operator (written : Written x e) (operator : x.operands ≠ [])
    (free : ∀ word ∈ e.atoms, v.valueFamily? word = none) (enough : e.size ≤ depth + 1)
    (reads : ∀ y ∈ x.operands, ∀ f, Written y f →
      (∀ word ∈ f.atoms, v.valueFamily? word = none) → f.size ≤ depth →
      ReadAs (v.scopeWithin w lastFailure depth) s f y.value) :
    ∃ word args, e.unwrapped = .list (.atom word :: args) ∧
      v.evaluateWithin w lastFailure (depth + 1) e s = (outcome w word e.unwrapped x, s) := by
  rw [← Event.atoms_unwrapped] at free
  rw [Vocabulary.evaluateWithin_unwrapped]
  exact evaluateWithin_of_opened written.opened operator free
    (e.size_unwrapped_le.trans enough) reads

theorem evaluateWithin_of_failing (s : σ) (written : Written x e)
    (free : ∀ word ∈ e.atoms, v.valueFamily? word = none) (enough : e.size ≤ depth)
    (failed : ∀ n, x.value ≠ .ok n) :
    ∃ r, v.evaluateWithin w lastFailure depth e s = (r, s) ∧ ∀ n, r ≠ .ok (.number n) := by
  -- By the operands: one that fails is evaluated to no number, so that it cannot be read.
  induction x using operands_induction generalizing e depth with
  | step x ih =>
    have hsize := e.size_pos
    obtain ⟨d, rfl⟩ : ∃ d, depth = d + 1 := ⟨depth - 1, by omega⟩
    by_cases operator : x.operands = []
    · obtain ⟨token, rfl⟩ := exists_literal operator
      have tokens : e.unwrapped.tokens = [.atom token] := written.opened
      rw [← Event.atoms_unwrapped] at free
      have hfree := free token (Event.mem_atoms_of_tokens tokens)
      obtain ⟨value, evaluated, hvalue⟩ := Vocabulary.evaluateWithin_word tokens hfree failed s
      refine ⟨.ok value, evaluated, ?_⟩
      rintro n h
      cases h
      cases hvalue
    · have reads : ∀ y ∈ x.operands, ∀ f, Written y f →
          (∀ word ∈ f.atoms, v.valueFamily? word = none) → f.size ≤ d →
          ReadAs (v.scopeWithin w lastFailure d) s f y.value := by
        intro y hy f written free enough
        exact readAs_of_written s written free enough (ih y hy written free enough)
      obtain ⟨word, args, -, evaluated⟩ :=
        evaluateWithin_of_operator written operator free enough reads
      exact ⟨_, evaluated, outcome_ne_number failed⟩

theorem evaluate_operator (v : Vocabulary σ) (w : World) (lastFailure : Option Failure) (s : σ)
    {x : Arithmetic} {e : Event} (written : Written x e) (operator : x.operands ≠ [])
    (free : ∀ word ∈ e.atoms, v.valueFamily? word = none) :
    ∃ word args, e.unwrapped = .list (.atom word :: args) ∧
      v.evaluate w lastFailure e s = (outcome w word e.unwrapped x, s) := by
  have enough : e.size ≤ e.size + Vocabulary.reserve + 1 := by omega
  rw [Vocabulary.evaluate, Nat.add_right_comm]
  apply evaluateWithin_of_operator written operator free enough
  intro y hy f written free enough
  exact readAs_of_written s written free enough (evaluateWithin_of_failing s written free enough)

/-- An expression that fails is evaluated to an error if the operands of its outermost operator
have values, and otherwise to what the word of that operator stands for: an address, or
the word as text. It is never evaluated to a number, and the ledger stays as it was. -/
theorem evaluate_of_failing (v : Vocabulary σ) (w : World) (lastFailure : Option Failure) (s : σ)
    {x : Arithmetic} {e : Event} {cause : NumericError} (written : Written x e)
    (free : ∀ word ∈ e.atoms, v.valueFamily? word = none) (operator : x.operands ≠ [])
    (failed : x.value = .error cause) :
    ∃ word args, e.unwrapped = .list (.atom word :: args) ∧
      v.evaluate w lastFailure e s =
        (if x.operands.all (·.value.isOk) then .error (.evaluation e.unwrapped.text cause.message)
          else .ok ((w.resolve? word).elim (.string word) .address), s) := by
  obtain ⟨word, args, hevent, evaluated⟩ :=
    evaluate_operator v w lastFailure s written operator free
  refine ⟨word, args, hevent, ?_⟩
  rw [evaluated, outcome, failed]
  rfl

theorem evaluate_of_failing_quotient :
    let x := binary .div (literal "3") (binary .sub (literal "1") (literal "1"))
    let e : Event := .list [.list [.atom "dIV", .atom "3",
      .list [.atom "Sub", .list [.atom "1"], .atom "1"]]]
    x.value = .error .divisionByZero ∧
      barVocabulary.evaluate (World.start .standard) none e () =
        (.error (.evaluation "(dIV 3 (Sub (1) 1))" "division by zero"), ()) := by
  intro x e
  have quotient : Text.sameWord "dIV" Binary.div.verb = true := by cbv
  have difference : Text.sameWord "Sub" Binary.sub.verb = true := by cbv
  have written : Written x e := .wrapped (.binary quotient (.literal "3")
    (.binary difference (.wrapped (.literal "1")) (.literal "1")))
  have free : ∀ word ∈ e.atoms, barVocabulary.valueFamily? word = none := by
    intro word h
    have hword : word ∈ ["dIV", "3", "Sub", "1", "1"] := h
    fin_cases hword <;> rfl
  have operator : x.operands ≠ [] := List.cons_ne_nil _ _
  have failed : x.value = .error .divisionByZero := by decide +kernel
  obtain ⟨word, args, -, evaluated⟩ :=
    evaluate_of_failing barVocabulary (World.start .standard) none () written free operator failed
  have valued : x.operands.all (·.value.isOk) = true := by decide +kernel
  have htext : e.unwrapped.text = "(dIV 3 (Sub (1) 1))" := by decide +kernel
  rw [if_pos valued, htext] at evaluated
  exact ⟨failed, evaluated⟩

theorem sum_of_failing_quotient :
    let x := binary .add (binary .div (literal "1") (literal "0")) (literal "2")
    let e : Event := .list [.atom "Add", .list [.atom "Div", .atom "1", .atom "0"], .atom "2"]
    Written x e ∧ (∀ word ∈ e.atoms, (Vocabulary.bare : Vocabulary Unit).valueFamily? word = none) ∧
      x.value = .error .divisionByZero ∧
      Vocabulary.bare.evaluate (World.start .standard) none e () = (.ok (.string "Add"), ()) := by
  intro x e
  have sum : Text.sameWord "Add" Binary.add.verb = true := by cbv
  have quotient : Text.sameWord "Div" Binary.div.verb = true := by cbv
  have written : Written x e :=
    .binary sum (.binary quotient (.literal "1") (.literal "0")) (.literal "2")
  have free : ∀ word ∈ e.atoms, (Vocabulary.bare : Vocabulary Unit).valueFamily? word = none :=
    fun word _ => rfl
  have operator : x.operands ≠ [] := List.cons_ne_nil _ _
  have failed : x.value = .error .divisionByZero := by decide +kernel
  obtain ⟨word, args, hevent, evaluated⟩ :=
    evaluate_operator Vocabulary.bare (World.start .standard) none () written operator free
  have refused : ¬ x.operands.all (·.value.isOk) = true := by decide +kernel
  have hitems := Event.list.inj ((Event.unwrapped_of_word _ _).symm.trans hevent)
  obtain rfl : "Add" = word := Event.atom.inj (List.cons.inj hitems).1
  rw [outcome, if_neg refused] at evaluated
  exact ⟨written, free, failed, evaluated⟩

end Arithmetic

end LedgerScript
