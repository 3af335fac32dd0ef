import LedgerScript.Proofs.Binding
import LedgerScript.Proofs.Literal
import LedgerScript.Proofs.Selection
import LedgerScript.Language.Evaluation

/-!
# Value expressions

An evaluation succeeds when the family of the expression selects an operation and that
operation's fetch succeeds. The core values select by verb, as their verbs differ; what
parses as a number has a digit, no core verb has one, and so it is left to the literals.
-/

set_option autoImplicit false

namespace LedgerScript

variable {σ : Type}

namespace Standard

def coreVerbs : List String :=
  ["Exactly", "Exp", "Add", "Sub", "Mul", "Div", "Min", "Max", "Equal", "LessThan", "GreaterThan",
    "List", "Address", "String", "True", "False", "Nothing"]

theorem leadsWith_coreValues : (coreValues : Family σ).LeadsWith coreVerbs := rfl

theorem leadsWithVerb_of_mem_regular (op : Operation σ) (h : op ∈ coreValues.regular) :
    op.LeadsWithVerb := leadsWith_coreValues.leadsWithVerb h

theorem nodup_keys_coreValues : ((coreValues : Family σ).regular.map Operation.key).Nodup :=
  leadsWith_coreValues.nodup_keys (by decide)

theorem all_not_digit_coreVerbs :
    coreVerbs.all (fun verb => (Text.verbKey verb).all (fun c => !c.isDigit)) = true := by
  decide +kernel

theorem digit_not_mem_verbKey {verb : String} (h : verb ∈ coreVerbs) {c : Char}
    (hdigit : c.isDigit = true) : c ∉ Text.verbKey verb := by
  intro hc
  have hall := List.all_eq_true.mp (List.all_eq_true.mp all_not_digit_coreVerbs verb h) c hc
  rw [hdigit] at hall
  cases hall

theorem not_hasVerb_of_digit {op : Operation σ} (h : op ∈ coreValues.regular) {c : Char}
    {word : String} (hc : c ∈ Text.verbKey word) (hdigit : c.isDigit = true) (args : List Event) :
    op.hasVerb (.atom word :: args) = false := by
  rw [Bool.eq_false_iff]
  intro hword
  obtain ⟨verb, hmem, -, hverb⟩ := leadsWith_coreValues.exists_verb h
  have hkey := (Operation.hasVerb_iff_key (leadsWithVerb_of_mem_regular op h) word args).mp hword
  rw [Operation.key, hverb, List.map_singleton, List.singleton_inj] at hkey
  rw [← hkey] at hc
  exact digit_not_mem_verbKey hmem hdigit hc

theorem fallbacks_coreValues :
    ∃ literal : Operation σ, coreValues.fallbacks = [literal] ∧
      literal.params = [{ valueParam "value" with catchall := true }] ∧
      literal.handler = .fetcher passed :=
  ⟨_, rfl, rfl, rfl⟩

theorem select_core {op : Operation σ} (mem : op ∈ coreValues.regular) {verb word : String}
    (hverb : op.verb = [verb]) (same : Text.sameWord word verb = true)
    (plain : ∀ p ∈ op.params, p.Plain) {scope : Scope σ} {args : List Event} {b : Arguments}
    {s t : σ} (taken : Arguments.Taken scope op.params args .empty b s t) :
    coreValues.select scope (.atom word :: args) s = (.ok (op, b), t) := by
  have hkey : op.key = [Text.verbKey word] := by
    rw [Operation.key, hverb, List.map_singleton, Text.verbKey_eq_of_sameWord same]
  exact Family.select_of_key leadsWithVerb_of_mem_regular nodup_keys_coreValues mem hkey
    (Arguments.bind_of_taken plain false taken)

/-- An expression that no operation of its verb takes is read as a literal, of which its first
word is all that counts. -/
theorem select_refused {scope : Scope σ} {word : String} {args : List Event} {s : σ}
    (refused : ∀ op ∈ coreValues.regular, op.hasVerb (.atom word :: args) = true →
      ∃ r, op.bind scope (.atom word :: args) s = (.error r, s)) :
    ∃ op b, coreValues.select scope (.atom word :: args) s = (.ok (op, b), s) ∧
      op.fetch scope b s = (.ok (Shape.literal scope.world word), s) := by
  obtain ⟨attempts, hrefused⟩ := Family.firstOf_of_refused refused
  obtain ⟨op, hfallbacks, hparams, hhandler⟩ := @fallbacks_coreValues σ
  have taken : Arguments.Taken scope op.params [.atom word] .empty
      (Fields.empty.insert "value" (Shape.literal scope.world word)) s s := by
    rw [hparams]
    exact .cons rfl (.nil _ s)
  have plain : ∀ p ∈ op.params, p.Plain := by
    rw [hparams, List.forall_mem_singleton]
    exact ⟨rfl, rfl, rfl⟩
  refine ⟨op, Fields.empty.insert "value" (Shape.literal scope.world word), ?_, ?_⟩
  · apply Family.select_of_fallback hrefused
    rw [hfallbacks]
    exact Family.firstOf_cons_of_ok (Arguments.bind_of_taken_extra plain args taken)
  · rw [Operation.fetch, hhandler]
    rfl

theorem select_literal {token : String} {n : Number} (parsed : Number.parse token = .ok n)
    (scope : Scope σ) (s : σ) :
    ∃ op b, coreValues.select scope [.atom token] s = (.ok (op, b), s) ∧
      op.fetch scope b s = (.ok (.number n), s) := by
  obtain ⟨c, hc, hdigit⟩ := Number.exists_digit_of_parse parsed
  have hkey := Text.digit_mem_verbKey hc hdigit
  have hliteral : Shape.literal scope.world token = .number n := by
    rw [Shape.literal, (Number.parse?_eq_some_iff token n).mpr parsed]
  rw [← hliteral]
  apply select_refused
  intro op hop hverb
  rw [not_hasVerb_of_digit hop hkey hdigit []] at hverb
  cases hverb

theorem bind_nothing (scope : Scope σ) (s : σ) :
    ∀ op ∈ (coreValues : Family σ).regular,
      (∃ r, Arguments.bind scope op.params [] false s = (.error r, s)) ∨
        ∃ b value, Arguments.bind scope op.params [] false s = (.ok b, s) ∧
          op.fetch scope b s = (.ok value, s) ∧ value.number? = none := by
  have hregular : (coreValues : Family σ).regular = coreOperations.dropLast := rfl
  rw [hregular, coreOperations]
  simp only [List.dropLast_cons_cons, List.dropLast_singleton, List.forall_mem_cons,
    List.not_mem_nil, false_implies, implies_true, and_true]
  -- All but the list and the three constants have a first argument that must be there.
  and_intros <;> first | exact .inl ⟨_, rfl⟩ | exact .inr ⟨_, _, rfl, rfl, rfl⟩

theorem number?_literal {word : String} (h : ∀ n, Number.parse word ≠ .ok n) (w : World) :
    (Shape.literal w word).number? = none := by
  have hparse : Number.parse? word = none := by
    rw [Option.eq_none_iff_forall_ne_some]
    intro n hn
    exact h n ((Number.parse?_eq_some_iff word n).mp hn)
  rw [Shape.literal, hparse]
  dsimp only
  split_ifs
  · rfl
  · rfl
  · split <;> rfl

theorem select_word {word : String} (h : ∀ n, Number.parse word ≠ .ok n) (scope : Scope σ)
    (s : σ) :
    ∃ op b value, coreValues.select scope [.atom word] s = (.ok (op, b), s) ∧
      op.fetch scope b s = (.ok value, s) ∧ value.number? = none := by
  by_cases refused : ∀ op ∈ coreValues.regular, op.hasVerb [.atom word] = true →
      ∃ r, op.bind scope [.atom word] s = (.error r, s)
  · obtain ⟨op, b, selected, fetched⟩ := select_refused refused
    exact ⟨op, b, _, selected, fetched, number?_literal h scope.world⟩
  · push Not at refused
    obtain ⟨op, mem, hverb, taken⟩ := refused
    have leads := leadsWithVerb_of_mem_regular op mem
    rw [Operation.bind_of_arguments (Operation.arguments_of_hasVerb leads hverb)] at taken
    obtain ⟨r, hr⟩ | ⟨b, value, bound, fetched, hvalue⟩ := bind_nothing scope s op mem
    · exact absurd hr (taken r)
    · have hkey := (Operation.hasVerb_iff_key leads word []).mp hverb
      have selected := Family.select_of_key leadsWithVerb_of_mem_regular nodup_keys_coreValues
        mem hkey bound
      exact ⟨op, b, value, selected, fetched, hvalue⟩

theorem literal_of_verb {verb word : String} (core : verb ∈ coreVerbs)
    (same : Text.sameWord word verb = true) (notTrue : Text.verbKey verb ≠ Text.verbKey "true")
    (notFalse : Text.verbKey verb ≠ Text.verbKey "false") (w : World) :
    Shape.literal w word = (w.resolve? word).elim (.string word) .address := by
  have hparse : Number.parse? word = none := by
    rw [Option.eq_none_iff_forall_ne_some]
    intro n hn
    obtain ⟨c, hc, hdigit⟩ :=
      Number.exists_digit_of_parse ((Number.parse?_eq_some_iff word n).mp hn)
    have hkey := Text.digit_mem_verbKey hc hdigit
    rw [Text.verbKey_eq_of_sameWord same] at hkey
    exact digit_not_mem_verbKey core hdigit hkey
  have hkey := Text.verbKey_eq_of_sameWord same
  have htrue : ¬ Text.sameWord word "true" = true := fun h =>
    notTrue (hkey.symm.trans (Text.verbKey_eq_of_sameWord h))
  have hfalse : ¬ Text.sameWord word "false" = true := fun h =>
    notFalse (hkey.symm.trans (Text.verbKey_eq_of_sameWord h))
  rw [Shape.literal, hparse]
  dsimp only
  rw [if_neg htrue, if_neg hfalse]
  cases w.resolve? word <;> rfl

end Standard

namespace Vocabulary

variable {v : Vocabulary σ} {w : World} {lastFailure : Option Failure} {depth : Nat}
  {value : Value} {s t u : σ}

def scopeWithin (v : Vocabulary σ) (w : World) (lastFailure : Option Failure) (depth : Nat) :
    Scope σ :=
  ⟨w, lastFailure, v.evaluateWithin w lastFailure depth⟩

theorem evaluateWithin_selected {e : Event} {op : Operation σ} {b : Arguments}
    (selected : (v.valueRoute e.unwrapped).1.select (v.scopeWithin w lastFailure depth)
      (v.valueRoute e.unwrapped).2 s = (.ok (op, b), t)) :
    v.evaluateWithin w lastFailure (depth + 1) e s =
      (op.fetch (v.scopeWithin w lastFailure depth) b).restate
        (.evaluation e.unwrapped.text ·.message) t := by
  rw [evaluateWithin]
  exact LedgerM.bind_ok (LedgerM.restate_ok selected _) _

theorem evaluateWithin_eq_ok {e : Event} :
    v.evaluateWithin w lastFailure (depth + 1) e s = (.ok value, u) ↔
      ∃ op b t,
        (v.valueRoute e.unwrapped).1.select (v.scopeWithin w lastFailure depth)
          (v.valueRoute e.unwrapped).2 s = (.ok (op, b), t) ∧
        op.fetch (v.scopeWithin w lastFailure depth) b t = (.ok value, u) := by
  rw [evaluateWithin]
  show ((Family.select _ _ _).restate _ >>= _) s = _ ↔ _
  rw [LedgerM.bind_eq_ok]
  constructor
  · rintro ⟨⟨op, b⟩, t, selected, fetched⟩
    exact ⟨op, b, t, LedgerM.restate_eq_ok.mp selected, LedgerM.restate_eq_ok.mp fetched⟩
  · rintro ⟨op, b, t, selected, fetched⟩
    exact ⟨(op, b), t, LedgerM.restate_ok selected _, LedgerM.restate_ok fetched _⟩

theorem valueRoute_wrapped (e : Event) :
    v.valueRoute (Event.list [e]).unwrapped = v.valueRoute e.unwrapped := by
  cases e with
  | atom text => rfl
  | list items => rw [Event.unwrapped_wrapped]

theorem evaluateWithin_wrapped {e : Event}
    (h : v.evaluateWithin w lastFailure (depth + 1) e s = (.ok value, u)) :
    v.evaluateWithin w lastFailure (depth + 1) (.list [e]) s = (.ok value, u) := by
  rw [evaluateWithin_eq_ok] at h ⊢
  rw [valueRoute_wrapped]
  exact h

theorem valueRoute_core {e : Event} {word : String} {args : List Event}
    (tokens : e.tokens = .atom word :: args) (free : v.valueFamily? word = none) :
    v.valueRoute e = (Standard.coreValues, .atom word :: args) := by
  have hhead : e.head?.bind v.valueFamily? = none := by
    rw [Event.head?, tokens]
    exact free
  rw [valueRoute, hhead, tokens]
  rfl

theorem evaluateWithin_core {op : Operation σ} (mem : op ∈ Standard.coreValues.regular)
    {verb word : String} (hverb : op.verb = [verb]) (same : Text.sameWord word verb = true)
    (free : v.valueFamily? word = none) (plain : ∀ p ∈ op.params, p.Plain) {args : List Event}
    {b : Arguments}
    (taken : Arguments.Taken (v.scopeWithin w lastFailure depth) op.params args .empty b s t) :
    v.evaluateWithin w lastFailure (depth + 1) (.list (.atom word :: args)) s =
      (op.fetch (v.scopeWithin w lastFailure depth) b).restate
        (.evaluation (Event.list (.atom word :: args)).text ·.message) t := by
  have hroute : v.valueRoute (Event.list (.atom word :: args)).unwrapped =
      (Standard.coreValues, .atom word :: args) := by
    rw [Event.unwrapped_of_word, valueRoute_core rfl free]
  have selected : (v.valueRoute (Event.list (.atom word :: args)).unwrapped).1.select
      (v.scopeWithin w lastFailure depth)
      (v.valueRoute (Event.list (.atom word :: args)).unwrapped).2 s = (.ok (op, b), t) := by
    rw [hroute]
    exact Standard.select_core mem hverb same plain taken
  rw [evaluateWithin_selected selected, Event.unwrapped_of_word]

/-- A core verb whose operation refuses the arguments stands for itself. -/
theorem evaluateWithin_refused {op : Operation σ} (mem : op ∈ Standard.coreValues.regular)
    {verb word : String} (hverb : op.verb = [verb]) (same : Text.sameWord word verb = true)
    (free : v.valueFamily? word = none) (plain : ∀ p ∈ op.params, p.Plain) {args : List Event}
    (refused : Arguments.Refused (v.scopeWithin w lastFailure depth) op.params args s s) :
    v.evaluateWithin w lastFailure (depth + 1) (.list (.atom word :: args)) s =
      (.ok (Shape.literal w word), s) := by
  have hkey : op.key = [Text.verbKey word] := by
    rw [Operation.key, hverb, List.map_singleton, Text.verbKey_eq_of_sameWord same]
  have hrefused : ∀ q ∈ Standard.coreValues.regular, q.hasVerb (.atom word :: args) = true →
      ∃ r, q.bind (v.scopeWithin w lastFailure depth) (.atom word :: args) s = (.error r, s) := by
    intro q hq hword
    have leads := Standard.leadsWithVerb_of_mem_regular q hq
    obtain rfl := Operation.eq_of_hasVerb Standard.leadsWithVerb_of_mem_regular
      Standard.nodup_keys_coreValues mem hq hkey hword
    rw [Operation.bind_of_arguments (Operation.arguments_of_hasVerb leads hword)]
    exact Arguments.bind_of_refused plain false refused
  obtain ⟨literal, b, selected, fetched⟩ := Standard.select_refused hrefused
  rw [evaluateWithin_eq_ok, Event.unwrapped_of_word, valueRoute_core rfl free]
  exact ⟨literal, b, s, selected, fetched⟩

theorem evaluateWithin_word {e : Event} {word : String} (tokens : e.unwrapped.tokens = [.atom word])
    (free : v.valueFamily? word = none) (h : ∀ n, Number.parse word ≠ .ok n) (s : σ) :
    ∃ value : Value, v.evaluateWithin w lastFailure (depth + 1) e s = (.ok value, s) ∧
      value.number? = none := by
  obtain ⟨op, b, value, selected, fetched, hvalue⟩ :=
    Standard.select_word h (v.scopeWithin w lastFailure depth) s
  refine ⟨value, ?_, hvalue⟩
  rw [evaluateWithin_eq_ok, valueRoute_core tokens free]
  exact ⟨op, b, s, selected, fetched⟩

theorem evaluateWithin_literal {token : String} {n : Number}
    (free : v.valueFamily? token = none) (parsed : Number.parse token = .ok n) (s : σ) :
    v.evaluateWithin w lastFailure (depth + 1) (.atom token) s = (.ok (.number n), s) := by
  obtain ⟨op, b, selected, fetched⟩ :=
    Standard.select_literal parsed (v.scopeWithin w lastFailure depth) s
  rw [evaluateWithin_eq_ok, Event.unwrapped_atom, valueRoute_core rfl free]
  exact ⟨op, b, s, selected, fetched⟩

end Vocabulary

end LedgerScript
