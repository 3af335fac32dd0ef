import LedgerScript.Proofs.Decimal
import LedgerScript.Proofs.Exchange
import LedgerScript.Proofs.Values

/-!
# Comparison of values

Equality and the order are two recursions over two values, which take different types apart in the
same way and lists item by item. Both are followed by one induction over pairs. Numbers are
compared over a common power of ten, that is as rational numbers, where the laws of an order hold;
lists have them once their items do. A comparison that gives up on two items has none of the
results that the laws ask for.
-/

set_option autoImplicit false

namespace LedgerScript

namespace Number

theorem cmp_swap (m n : Number) : n.cmp m = (m.cmp n).swap := by
  rw [cmp_eq_compare, cmp_eq_compare]
  exact Std.OrientedCmp.eq_swap

theorem cmp_eq_iff (m n : Number) : m.cmp n = .eq ↔ m.eqv n = true := by
  rw [cmp_eq_compare, compare_eq_iff_eq, eqv_iff_toRat_eq]

theorem cmp_lt_trans {m n k : Number} (h : m.cmp n = .lt) (h' : n.cmp k = .lt) :
    m.cmp k = .lt := by
  rw [cmp_eq_compare, compare_lt_iff_lt] at *
  exact h.trans h'

end Number

namespace Value

theorem list_induction {P : Value → Prop} (list : ∀ xs, (∀ x ∈ xs, P x) → P (.list xs))
    (single : ∀ v, v.list? = none → P v) (v : Value) : P v :=
  @Value.rec P (fun xs => ∀ x ∈ xs, P x) (fun _ => single _ rfl) (fun _ => single _ rfl)
    (fun _ => single _ rfl) (fun _ => single _ rfl) list (fun _ => single _ rfl) (single _ rfl)
    (List.forall_mem_nil P) (fun _ _ hx hxs => List.forall_mem_cons.mpr ⟨hx, hxs⟩) v

/-- Two values are of different types, or of one type, where lists lead to their items. -/
theorem pair_induction {P : Value → Value → Prop}
    (apart : ∀ a b, a.typeName ≠ b.typeName → P a b)
    (address : ∀ a b, P (.address a) (.address b))
    (number : ∀ m n, P (.number m) (.number n))
    (string : ∀ s r, P (.string s) (.string r))
    (bool : ∀ p q, P (.bool p) (.bool q))
    (list : ∀ xs ys, (∀ x ∈ xs, ∀ y, P x y) → P (.list xs) (.list ys))
    (event : ∀ e f, P (.event e) (.event f))
    (nothing : P .nothing .nothing) (a b : Value) : P a b := by
  induction a using list_induction generalizing b with
  | list xs ih =>
    cases b with
    | list ys => exact list xs ys ih
    | _ => exact apart _ _ (by simp [typeName])
  | single a noList =>
    cases a with
    | address a =>
      cases b with
      | address b => exact address a b
      | _ => exact apart _ _ (by simp [typeName])
    | number m =>
      cases b with
      | number n => exact number m n
      | _ => exact apart _ _ (by simp [typeName])
    | string s =>
      cases b with
      | string r => exact string s r
      | _ => exact apart _ _ (by simp [typeName])
    | bool p =>
      cases b with
      | bool q => exact bool p q
      | _ => exact apart _ _ (by simp [typeName])
    | event e =>
      cases b with
      | event f => exact event e f
      | _ => exact apart _ _ (by simp [typeName])
    | nothing =>
      cases b with
      | nothing => exact nothing
      | _ => exact apart _ _ (by simp [typeName])
    | list xs => cases noList

theorem compare?_of_apart {a b : Value} (h : a.typeName ≠ b.typeName) : a.compare? b = none := by
  cases a <;> cases b <;> first | rfl | exact absurd rfl h

theorem eqv_of_apart {a b : Value} (h : a.typeName ≠ b.typeName) : a.eqv b = false := by
  cases a <;> cases b <;> first | rfl | exact absurd rfl h

theorem compareAll?_swap {xs : List Value}
    (h : ∀ x ∈ xs, ∀ y, y.compare? x = (x.compare? y).map .swap) (ys : List Value) :
    compareAll? ys xs = (compareAll? xs ys).map .swap := by
  induction xs generalizing ys with
  | nil => cases ys <;> rfl
  | cons x xs ih =>
    cases ys with
    | nil => rfl
    | cons y ys =>
      rw [compareAll?, compareAll?, h x List.mem_cons_self y]
      rcases x.compare? y with _ | _ | _ | _
      · rfl
      · rfl
      · exact ih (fun z hz => h z (List.mem_cons_of_mem x hz)) ys
      · rfl

theorem compare?_swap (a b : Value) : b.compare? a = (a.compare? b).map .swap := by
  induction a, b using pair_induction with
  | apart a b h => rw [compare?_of_apart h, compare?_of_apart h.symm, Option.map_none]
  | address a b => exact congrArg some Std.OrientedCmp.eq_swap
  | number m n => exact congrArg some (m.cmp_swap n)
  | string s r => exact congrArg some Std.OrientedCmp.eq_swap
  | bool p q => exact congrArg some Std.OrientedCmp.eq_swap
  | list xs ys ih => exact compareAll?_swap ih ys
  | event e f =>
    rw [compare?, compare?]
    by_cases h : e = f
    · rw [if_pos h, if_pos h.symm]
      rfl
    · rw [if_neg h, if_neg (Ne.symm h)]
      rfl
  | nothing => rfl

theorem compareAll?_eq_iff {xs : List Value}
    (h : ∀ x ∈ xs, ∀ y, x.compare? y = some .eq ↔ x.eqv y = true) (ys : List Value) :
    compareAll? xs ys = some .eq ↔ eqvAll xs ys = true := by
  induction xs generalizing ys with
  | nil => cases ys <;> simp [compareAll?, eqvAll]
  | cons x xs ih =>
    cases ys with
    | nil => simp [compareAll?, eqvAll]
    | cons y ys =>
      have hx := h x List.mem_cons_self y
      have hxs := ih (fun z hz => h z (List.mem_cons_of_mem x hz)) ys
      rw [compareAll?, eqvAll, Bool.and_eq_true, ← hx, ← hxs]
      rcases x.compare? y with _ | _ | _ | _ <;> simp

theorem compare?_eq_iff (a b : Value) : a.compare? b = some .eq ↔ a.eqv b = true := by
  induction a, b using pair_induction with
  | apart a b h => simp [compare?_of_apart h, eqv_of_apart h]
  | address a b => simp [compare?, eqv, Text.sameWord]
  | number m n => rw [compare?, eqv, Option.some_inj, m.cmp_eq_iff]
  | string s r => simp [compare?, eqv]
  | bool p q => simp [compare?, eqv]
  | list xs ys ih => exact compareAll?_eq_iff ih ys
  | event e f => simp [compare?, eqv]
  | nothing => simp [compare?, eqv]

theorem compareAll?_congr {xs ys : List Value}
    (h : ∀ x ∈ xs, ∀ y, x.eqv y = true → ∀ z, x.compare? z = y.compare? z)
    (same : eqvAll xs ys = true) (zs : List Value) : compareAll? xs zs = compareAll? ys zs := by
  induction xs generalizing ys zs with
  | nil =>
    cases ys with
    | nil => rfl
    | cons y ys => cases same
  | cons x xs ih =>
    cases ys with
    | nil => cases same
    | cons y ys =>
      rw [eqvAll, Bool.and_eq_true] at same
      cases zs with
      | nil => rfl
      | cons z zs =>
        rw [compareAll?, compareAll?, h x List.mem_cons_self y same.1 z,
          ih (fun z hz => h z (List.mem_cons_of_mem x hz)) same.2 zs]

theorem compare?_congr_left {a b : Value} (same : a.eqv b = true) (c : Value) :
    a.compare? c = b.compare? c := by
  induction a, b using pair_induction generalizing c with
  | apart a b h =>
    rw [eqv_of_apart h] at same
    cases same
  | address a b =>
    rw [eqv, Text.sameWord, beq_iff_eq] at same
    cases c with
    | address c => rw [compare?, compare?, same]
    | _ => rfl
  | number m n =>
    rw [eqv, Number.eqv, beq_iff_eq] at same
    cases c with
    | number k => rw [compare?, compare?, Number.cmp, Number.cmp, same]
    | _ => rfl
  | string s r =>
    rw [eqv, beq_iff_eq] at same
    rw [same]
  | bool p q =>
    rw [eqv, beq_iff_eq] at same
    rw [same]
  | list xs ys ih =>
    cases c with
    | list zs => exact compareAll?_congr (fun x hx y same z => ih x hx y same z) same zs
    | _ => rfl
  | event e f =>
    rw [eqv, beq_iff_eq] at same
    rw [same]
  | nothing => rfl

theorem compare?_congr_right {b c : Value} (same : b.eqv c = true) (a : Value) :
    a.compare? b = a.compare? c := by
  rw [compare?_swap b a, compare?_swap c a, compare?_congr_left same a]

theorem compareAll?_cons_eq_lt {x y : Value} {xs ys : List Value} :
    compareAll? (x :: xs) (y :: ys) = some .lt ↔
      x.compare? y = some .lt ∨ x.eqv y = true ∧ compareAll? xs ys = some .lt := by
  rw [compareAll?, ← compare?_eq_iff]
  rcases x.compare? y with _ | _ | _ | _ <;> simp

theorem compareAll?_trans {xs : List Value}
    (h : ∀ x ∈ xs, ∀ y, x.compare? y = some .lt → ∀ z, y.compare? z = some .lt →
      x.compare? z = some .lt) {ys zs : List Value}
    (hxy : compareAll? xs ys = some .lt) (hyz : compareAll? ys zs = some .lt) :
    compareAll? xs zs = some .lt := by
  -- over the first list; where two first items are equal the third decides as with either of them
  induction xs generalizing ys zs with
  | nil =>
    cases zs with
    | nil => cases ys <;> cases hyz
    | cons z zs => rfl
  | cons x xs ih =>
    cases ys with
    | nil => cases hxy
    | cons y ys =>
      cases zs with
      | nil => cases hyz
      | cons z zs =>
        rw [compareAll?_cons_eq_lt] at hxy hyz ⊢
        rcases hxy with hxy | ⟨hxy, hxys⟩
        · rcases hyz with hyz | ⟨hyz, -⟩
          · exact .inl (h x List.mem_cons_self y hxy z hyz)
          · exact .inl (compare?_congr_right hyz x ▸ hxy)
        · rw [compare?_congr_left hxy z]
          rcases hyz with hyz | ⟨hyz, hyzs⟩
          · exact .inl hyz
          · refine .inr ⟨?_, ih (fun v hv => h v (List.mem_cons_of_mem x hv)) hxys hyzs⟩
            rw [← compare?_eq_iff, compare?_congr_left hxy z]
            exact (compare?_eq_iff y z).mpr hyz

theorem compare?_lt_trans {a b : Value} (h : a.compare? b = some .lt) {c : Value}
    (h' : b.compare? c = some .lt) : a.compare? c = some .lt := by
  induction a, b using pair_induction generalizing c with
  | apart a b apart =>
    rw [compare?_of_apart apart] at h
    cases h
  | address a b =>
    cases c with
    | address c =>
      rw [compare?, Option.some_inj] at h h' ⊢
      exact Std.TransCmp.lt_trans h h'
    | _ => cases h'
  | number m n =>
    cases c with
    | number k =>
      rw [compare?, Option.some_inj] at h h' ⊢
      exact Number.cmp_lt_trans h h'
    | _ => cases h'
  | string s r =>
    cases c with
    | string q =>
      rw [compare?, Option.some_inj] at h h' ⊢
      exact Std.TransCmp.lt_trans h h'
    | _ => cases h'
  | bool p q =>
    cases c with
    | bool r =>
      rw [compare?, Option.some_inj] at h h' ⊢
      exact Std.TransCmp.lt_trans h h'
    | _ => cases h'
  | list xs ys ih =>
    cases c with
    | list zs => exact compareAll?_trans (fun x hx y hxy z hyz => ih x hx y hxy hyz) h h'
    | _ => cases h'
  | event e f =>
    rw [compare?] at h
    split at h <;> cases h
  | nothing => cases h

theorem eqv_refl (a : Value) : a.eqv a = true := by
  have same (a b : Value) (h : a = b) : a.eqv b = true := by
    induction a, b using pair_induction with
    | apart a b apart => exact absurd (congrArg typeName h) apart
    | list xs ys ih =>
      cases h
      show eqvAll xs xs = true
      simpa using eqvAll_map (f := id) fun x hx => ih x hx x rfl
    | _ =>
      cases h
      simp [eqv, Text.sameWord, Number.eqv]
  exact same a a rfl

theorem eqv_symm {a b : Value} (h : a.eqv b = true) : b.eqv a = true := by
  rw [← compare?_eq_iff] at h ⊢
  rw [compare?_swap a b, h]
  rfl

theorem eqv_trans {a b c : Value} (h : a.eqv b = true) (h' : b.eqv c = true) : a.eqv c = true := by
  rw [← compare?_eq_iff, compare?_congr_left h c, compare?_eq_iff]
  exact h'

end Value

inductive Comparison where
  | equal
  | less
  | greater

namespace Comparison

def verb : Comparison → String
  | equal => "Equal"
  | less => "LessThan"
  | greater => "GreaterThan"

def holds : Comparison → Value → Value → Bool
  | equal => Value.eqv
  | less => Standard.isLess
  | greater => Standard.isGreater

/-- The test that two numbers in this order pass. -/
def passed : Ordering → Comparison
  | .eq => equal
  | .lt => less
  | .gt => greater

theorem holds_number_iff (o : Comparison) (m n : Number) :
    o.holds (.number m) (.number n) = true ↔ o = passed (m.cmp n) := by
  cases o with
  | equal =>
    rw [holds, Value.eqv, ← m.cmp_eq_iff]
    cases m.cmp n <;> simp [passed]
  | less =>
    rw [holds, Standard.isLess, Value.compare?, beq_iff_eq, Option.some_inj]
    cases m.cmp n <;> simp [passed]
  | greater =>
    rw [holds, Standard.isGreater, Value.compare?, beq_iff_eq, Option.some_inj]
    cases m.cmp n <;> simp [passed]

theorem existsUnique_holds (m n : Number) :
    ∃! o : Comparison, o.holds (.number m) (.number n) = true := by
  simp only [holds_number_iff]
  exact existsUnique_eq

variable {σ : Type}

theorem exists_operation (o : Comparison) :
    ∃ op ∈ (Standard.coreValues : Family σ).regular, op.verb = [o.verb] ∧
      op.params = Standard.valuePair ∧ op.handler = .fetcher (Standard.comparison o.holds) := by
  cases o with
  | equal => exact ⟨_, List.mem_of_getElem? (i := 8) rfl, rfl, rfl, rfl⟩
  | less => exact ⟨_, List.mem_of_getElem? (i := 9) rfl, rfl, rfl, rfl⟩
  | greater => exact ⟨_, List.mem_of_getElem? (i := 10) rfl, rfl, rfl, rfl⟩

theorem plain_valuePair : ∀ p ∈ (Standard.valuePair : List (Param σ)), p.Plain := by
  rw [Standard.valuePair, List.forall_mem_cons, List.forall_mem_singleton]
  exact ⟨⟨rfl, rfl, rfl⟩, ⟨rfl, rfl, rfl⟩⟩

theorem evaluateWithin_comparison {v : Vocabulary σ} {w : World} {last : Option Failure}
    {depth : Nat} {e f : Event} {a b : Value} {s t u : σ} (o : Comparison)
    (free : v.valueFamily? o.verb = none)
    (left : Shape.value.read (v.scopeWithin w last depth) e s = (.ok a, t))
    (right : Shape.value.read (v.scopeWithin w last depth) f t = (.ok b, u)) :
    v.evaluateWithin w last (depth + 1) (.list [.atom o.verb, e, f]) s =
      (.ok (.bool (o.holds a b)), u) := by
  obtain ⟨op, mem, hverb, hparams, hhandler⟩ := @exists_operation σ o
  have plain : ∀ p ∈ op.params, p.Plain := by
    rw [hparams]
    exact plain_valuePair
  have taken : Arguments.Taken (v.scopeWithin w last depth) op.params [e, f] .empty
      ((Fields.empty.insert "a" a).insert "b" b) s u := by
    rw [hparams]
    exact .cons left (.cons right (.nil _ u))
  rw [Vocabulary.evaluateWithin_core mem hverb (Text.sameWord_refl _) free plain taken,
    LedgerM.restate_apply, Operation.fetch, hhandler]
  rfl

theorem existsUnique_evaluateWithin {v : Vocabulary σ} {w : World} {last : Option Failure}
    {depth : Nat} {e f : Event} {m n : Number} {s t u : σ}
    (free : ∀ o : Comparison, v.valueFamily? o.verb = none)
    (left : Shape.value.read (v.scopeWithin w last depth) e s = (.ok (.number m), t))
    (right : Shape.value.read (v.scopeWithin w last depth) f t = (.ok (.number n), u)) :
    ∃! o : Comparison, v.evaluateWithin w last (depth + 1) (.list [.atom o.verb, e, f]) s =
      (.ok (.bool true), u) := by
  have passes (o : Comparison) :
      v.evaluateWithin w last (depth + 1) (.list [.atom o.verb, e, f]) s = (.ok (.bool true), u) ↔
        o.holds (.number m) (.number n) = true := by
    rw [evaluateWithin_comparison o (free o) left right]
    exact ⟨fun h => Value.bool.inj (Except.ok.inj (congrArg Prod.fst h)), fun h => by rw [h]⟩
  simp only [passes]
  exact existsUnique_holds m n

end Comparison

/-- Comparing and equality of values agree: values compare equal just if they are equal, equal
values compare alike, the other way round the order is reversed, what is less than something less
is less, and equality is an equivalence. Two numbers pass one of the tests. Where no family takes
their verbs away, the tests of two expressions say how the values of these compare, and of
expressions that come to numbers one test is true. -/
theorem Value.coherent_comparison :
    (∀ a b : Value, a.compare? b = some .eq ↔ a.eqv b = true) ∧
    (∀ a b : Value, b.compare? a = (a.compare? b).map .swap) ∧
    (∀ a b c : Value, a.compare? b = some .lt → b.compare? c = some .lt →
      a.compare? c = some .lt) ∧
    (∀ a b c d : Value, a.eqv b = true → c.eqv d = true → a.compare? c = b.compare? d) ∧
    (Equivalence fun a b : Value => a.eqv b = true) ∧
    (∀ m n : Number, ∃! o : Comparison, o.holds (.number m) (.number n) = true) ∧
    ∀ {σ : Type} (v : Vocabulary σ) (w : World) (last : Option Failure) (depth : Nat)
      (e f : Event) (s t u : σ), (∀ o : Comparison, v.valueFamily? o.verb = none) →
      (∀ a b : Value, Shape.value.read (v.scopeWithin w last depth) e s = (.ok a, t) →
        Shape.value.read (v.scopeWithin w last depth) f t = (.ok b, u) →
        ∀ o : Comparison, v.evaluateWithin w last (depth + 1) (.list [.atom o.verb, e, f]) s =
          (.ok (.bool (o.holds a b)), u)) ∧
      ∀ m n : Number,
        Shape.value.read (v.scopeWithin w last depth) e s = (.ok (.number m), t) →
        Shape.value.read (v.scopeWithin w last depth) f t = (.ok (.number n), u) →
        ∃! o : Comparison,
          v.evaluateWithin w last (depth + 1) (.list [.atom o.verb, e, f]) s =
            (.ok (.bool true), u) := by
  refine ⟨compare?_eq_iff, compare?_swap, fun _ _ _ h h' => compare?_lt_trans h h', ?_,
    ⟨eqv_refl, eqv_symm, eqv_trans⟩, Comparison.existsUnique_holds, ?_⟩
  · intro a b c d hab hcd
    rw [compare?_congr_left hab, compare?_congr_right hcd]
  · intro σ v w last depth e f s t u free
    exact ⟨fun a b left right o => o.evaluateWithin_comparison (free o) left right,
      fun m n left right => Comparison.existsUnique_evaluateWithin free left right⟩

theorem Value.coherent_comparison_nested :
    let a : Value := .list [.address "0xA", .list [.bool false, .number (.ofInt 7)]]
    let b : Value := .list [.address "0xa", .list [.bool true]]
    let c : Value := .list [.address "0xA", .list [.bool true, .nothing]]
    a.compare? b = some .lt ∧ b.compare? c = some .lt ∧ a.compare? c = some .lt ∧
      ∃! o : Comparison, (Vocabulary.bare : Vocabulary Unit).evaluateWithin (.start .standard) none
        1 (.list [.atom o.verb, .atom "1e2", .atom "99"]) () = (.ok (.bool true), ()) := by
  intro a b c
  have hab : a.compare? b = some .lt := by cbv
  have hbc : b.compare? c = some .lt := by cbv
  obtain ⟨-, -, trans, -, -, -, tests⟩ := Value.coherent_comparison
  have operand {token : String} {n : Number} (parsed : Number.parse? token = some n) :
      Shape.value.read (Vocabulary.bare.scopeWithin (.start .standard) none 0) (.atom token) () =
        (.ok (.number n), ()) := by
    rw [Shape.read, Shape.literal, parsed]
    rfl
  refine ⟨hab, hbc, trans a b c hab hbc, ?_⟩
  exact (tests Vocabulary.bare (.start .standard) none 0 (.atom "1e2") (.atom "99") () () ()
    (fun _ => rfl)).2 _ _ (operand (n := ⟨.ofInt 100, .scaled 2⟩) (by decide +kernel))
    (operand (n := .ofInt 99) (by decide +kernel))

end LedgerScript
