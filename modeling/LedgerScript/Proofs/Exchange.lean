import LedgerScript.Proofs.Computed
import LedgerScript.Value.Exchange

/-!
# Values to the wire and back

On the wire addresses, numbers and texts are all strings, and a string is read by its look. The
looks do not meet: no spelled decimal is an address, and the text of an object is neither. So what
keeps its look comes back as it was, and whatever has come from the wire keeps its look.
-/

set_option autoImplicit false

namespace LedgerScript

theorem isAddress_of_spelled {text : String} {s : Decimal.Spelling} (h : text.toList = s.chars) :
    isAddress text = false := by
  rw [isAddress, h]
  split
  · rename_i x digits hchars
    have hx : x ∈ s.chars := by
      rw [hchars]
      exact List.mem_cons_of_mem _ List.mem_cons_self
    have hne : x ≠ 'x' ∧ x ≠ 'X' := by
      constructor <;> rintro rfl <;>
        rcases s.mem_chars hx with h | h | h | h <;> cases h
    rw [beq_false_of_ne hne.1, beq_false_of_ne hne.2]
    rfl
  · rfl

theorem Number.head_of_parse {token : String} {n : Number} (h : Number.parse token = .ok n)
    {c : Char} {rest : List Char} (hhead : token.toList = c :: rest) :
    c = '+' ∨ c = '-' ∨ c = '.' ∨ c.isDigit = true := by
  obtain ⟨-, -, cs, m, hprefix, hm, -⟩ := Number.exists_decimal_of_parse h
  obtain ⟨s, rfl, -, -⟩ := Decimal.Spelling.exists_of_ofChars? hm
  obtain ⟨d, ds, hchars⟩ := List.exists_cons_of_ne_nil s.chars_ne_nil
  obtain ⟨t, ht⟩ := hprefix
  rw [hchars, hhead, List.cons_append, List.cons.injEq] at ht
  rw [← ht.1]
  apply s.mem_chars
  rw [hchars]
  exact List.mem_cons_self

/-- All numbers outside the objects are integers. -/
inductive Wire.Integral : Wire → Prop
  | null : Integral .null
  | bool (b : Bool) : Integral (.bool b)
  | integer (n : Int) : Integral (.integer n)
  | string (s : String) : Integral (.string s)
  | array {items : List Wire} (all : ∀ w ∈ items, Integral w) : Integral (.array items)
  | object (fields : List (String × Wire)) : Integral (.object fields)

namespace Value

/-- Values whose look on the wire says what they are. -/
inductive Faithful : Value → Prop
  | nothing : Faithful .nothing
  | bool (b : Bool) : Faithful (.bool b)
  | address {a : String} (literal : isAddress a = true) : Faithful (.address a)
  | number {n : Number} (computed : n.Computed) (short : n.value.wholeDigits ≤ Number.maxDigits) :
      Faithful (.number n)
  | string {s : String} (notAddress : isAddress s = false)
      (notPlain : ∀ n, Number.parse s = .ok n → n.style ≠ .plain) : Faithful (.string s)
  | list {items : List Value} (all : ∀ v ∈ items, Faithful v) : Faithful (.list items)

theorem plainNumber?_eq_some_iff (s : String) (n : Number) :
    plainNumber? s = some n ↔ Number.parse s = .ok n ∧ n.style = .plain := by
  rw [plainNumber?, Option.filter_eq_some_iff, Number.parse?_eq_some_iff, beq_iff_eq]

theorem ofText_of_plain {s : String} {n : Number} (notAddress : isAddress s = false)
    (parsed : Number.parse s = .ok n) (plain : n.style = .plain) : ofText s = .number n := by
  rw [ofText, notAddress, (plainNumber?_eq_some_iff s n).mpr ⟨parsed, plain⟩]
  rfl

theorem ofText_of_not_plain {s : String} (notAddress : isAddress s = false)
    (notPlain : ∀ n, Number.parse s = .ok n → n.style ≠ .plain) : ofText s = .string s := by
  have hnone : plainNumber? s = none := by
    rw [Option.eq_none_iff_forall_ne_some]
    intro n hn
    obtain ⟨parsed, plain⟩ := (plainNumber?_eq_some_iff s n).mp hn
    exact notPlain n parsed plain
  rw [ofText, notAddress, hnone]
  rfl

theorem isAddress_plainText (n : Number) : isAddress n.plainText = false := by
  apply isAddress_of_spelled (s := n.value.spelling)
  rw [Number.toList_plainText, Decimal.chars_spelling]

theorem ofWire_toWire_number {n : Number} (h : Number.inRange n.value = true) :
    ofWire (toWire (.number n)) =
      if n.value.wholeDigits ≤ Number.maxDigits then .number ⟨n.value, .plain⟩
      else .string n.plainText := by
  have parsed := Number.parse_plainText h
  rw [toWire, ofWire]
  by_cases hshort : n.value.wholeDigits ≤ Number.maxDigits
  · rw [if_pos hshort] at parsed ⊢
    exact ofText_of_plain (isAddress_plainText n) parsed rfl
  · rw [if_neg hshort] at parsed ⊢
    apply ofText_of_not_plain (isAddress_plainText n)
    intro m hm
    rw [parsed] at hm
    cases hm

/-- The plain text of a computed number, and the wire, give back the same number exactly when it
has no more digits before the point than a literal may have. -/
theorem computed_exchange {n : Number} (h : n.Computed) :
    Number.parse n.plainText =
        (if n.value.wholeDigits ≤ Number.maxDigits then .ok ⟨n.value, .plain⟩
        else .error (.notANumber n.plainText)) ∧
      ofWire (toWire (.number n)) =
        if n.value.wholeDigits ≤ Number.maxDigits then .number ⟨n.value, .plain⟩
        else .string n.plainText :=
  ⟨Number.parse_plainText h.inRange, ofWire_toWire_number h.inRange⟩

theorem computed_exchange_third :
    let n : Number := ⟨.of (pow10 36 / 3) 36, .plain⟩
    Number.div (.ofInt 1) (.ofInt 3) = .ok n ∧ Number.parse n.plainText = .ok n ∧
      ofWire (toWire (.number n)) = .number n := by
  intro n
  have one : Number.parse "1" = .ok (.ofInt 1) := by decide +kernel
  have three : Number.parse "3" = .ok (.ofInt 3) := by decide +kernel
  have quotient : Number.div (.ofInt 1) (.ofInt 3) = .ok n := by decide +kernel
  have short : n.value.wholeDigits ≤ Number.maxDigits := by decide +kernel
  have exchange := computed_exchange (.div (.parsed one) (.parsed three) quotient)
  rw [if_pos short, if_pos short] at exchange
  exact ⟨quotient, exchange⟩

theorem product_without_plain_literal :
    ∃ a n : Number, Number.parse "1e4096" = .ok a ∧ a.mul a = .ok n ∧
      (∀ m, Number.parse n.plainText ≠ .ok m) ∧
      ∀ m, ofWire (toWire (.number n)) ≠ .number m := by
  let a : Number := ⟨.ofInt (pow10 4096), .scaled 4096⟩
  let n : Number := ⟨.ofInt (pow10 8192), .plain⟩
  have parsed : Number.parse "1e4096" = .ok a := by decide +kernel
  have product : a.mul a = .ok n := by decide +kernel
  have range : Number.inRange n.value = true := (Number.eq_of_checked product).2
  have long : ¬ n.value.wholeDigits ≤ Number.maxDigits := by
    rw [Decimal.wholeDigits, Nat.length_toDigits_le_iff (by decide) (by decide)]
    decide +kernel
  refine ⟨a, n, parsed, product, fun m hm => ?_, fun m hm => ?_⟩
  · rw [Number.parse_plainText range, if_neg long] at hm
    cases hm
  · rw [ofWire_toWire_number range, if_neg long] at hm
    cases hm

theorem toWires_eq_map (items : List Value) : toWires items = items.map toWire := by
  induction items with
  | nil => rfl
  | cons v rest ih => rw [toWires, ih, List.map_cons]

theorem ofWires_eq_map (items : List Wire) : ofWires items = items.map ofWire := by
  induction items with
  | nil => rfl
  | cons w rest ih => rw [ofWires, ih, List.map_cons]

theorem eqvAll_map {f : Value → Value} {items : List Value} (h : ∀ v ∈ items, (f v).eqv v = true) :
    eqvAll (items.map f) items = true := by
  induction items with
  | nil => rfl
  | cons v rest ih =>
    rw [List.map_cons, eqvAll, h v List.mem_cons_self,
      ih (fun w hw => h w (List.mem_cons_of_mem v hw))]
    rfl

theorem eqv_ofWire_toWire {v : Value} (h : v.Faithful) : (ofWire (toWire v)).eqv v = true := by
  induction h with
  | nothing => rfl
  | bool b => rw [toWire, ofWire, eqv, beq_self_eq_true]
  | @address a literal => rw [toWire, ofWire, ofText, if_pos literal, eqv, Text.sameWord_refl]
  | @number n computed short =>
    rw [ofWire_toWire_number computed.inRange, if_pos short, eqv, Number.eqv, beq_self_eq_true]
  | @string s notAddress notPlain =>
    rw [toWire, ofWire, ofText_of_not_plain notAddress notPlain, eqv, beq_self_eq_true]
  | @list items all ih =>
    rw [toWire, ofWire, toWires_eq_map, ofWires_eq_map, List.map_map, eqv]
    exact eqvAll_map ih

theorem faithful_of_parse {s : String} {n : Number} (parsed : Number.parse s = .ok n)
    (plain : n.style = .plain) : Faithful (.number n) := by
  obtain ⟨-, -, cs, m, -, hm, hvalue⟩ := Number.exists_decimal_of_parse parsed
  rw [plain, Number.Style.exponent, Decimal.shift_zero] at hvalue
  refine .number (.parsed parsed) ?_
  rw [hvalue]
  exact (Decimal.le_of_ofChars? hm).1

theorem faithful_ofText (s : String) : (ofText s).Faithful := by
  by_cases haddress : isAddress s = true
  · rw [ofText, if_pos haddress]
    exact .address haddress
  rw [Bool.not_eq_true] at haddress
  by_cases hplain : ∃ n, Number.parse s = .ok n ∧ n.style = .plain
  · obtain ⟨n, parsed, plain⟩ := hplain
    rw [ofText_of_plain haddress parsed plain]
    exact faithful_of_parse parsed plain
  · have notPlain (n : Number) (parsed : Number.parse s = .ok n) : n.style ≠ .plain :=
      fun plain => hplain ⟨n, parsed, plain⟩
    rw [ofText_of_not_plain haddress notPlain]
    exact .string haddress notPlain

theorem faithful_ofNumberText_int (k : Int) : (ofNumberText (toString k)).Faithful := by
  have written : (toString k).toList =
      (Decimal.ofInt k).spelling.chars ++ Number.Style.plain.suffix := by
    rw [toList_toString_int, Decimal.chars_spelling, Number.Style.suffix, List.append_nil]
  have parsed := @Number.parse_spelled _ _ .plain trivial written
  have notAddress : isAddress (toString k) = false := by
    rw [Number.Style.suffix, List.append_nil] at written
    exact isAddress_of_spelled written
  rw [ofNumberText]
  split
  · rename_i n hn
    rw [Number.parse?_eq_some_iff] at hn
    refine faithful_of_parse hn ?_
    rw [parsed] at hn
    split at hn
    · rw [(Number.eq_of_checked hn).1]
    · cases hn
  · rename_i hnone
    refine .string notAddress fun n hn => ?_
    rw [(Number.parse?_eq_some_iff _ n).mpr hn] at hnone
    cases hnone

theorem faithful_objectText (fields : List (String × Wire)) :
    Faithful (.string (Wire.object fields).text) := by
  have htext : ∃ rest, (Wire.object fields).text.toList = '{' :: rest := by
    rw [Wire.text, String.toList_append, String.toList_append]
    exact ⟨_, rfl⟩
  obtain ⟨rest, htext⟩ := htext
  refine .string ?_ fun n parsed => ?_
  · rw [isAddress, htext]
    split
    · rename_i hchars
      cases hchars
    · rfl
  · rcases Number.head_of_parse parsed htext with h | h | h | h <;> cases h

theorem faithful_ofWire {w : Wire} (h : w.Integral) : (ofWire w).Faithful := by
  induction h with
  | null => exact .nothing
  | bool b => exact .bool b
  | integer n =>
    rw [ofWire]
    exact faithful_ofNumberText_int n
  | string s =>
    rw [ofWire]
    exact faithful_ofText s
  | @array items all ih =>
    rw [ofWire, ofWires_eq_map]
    refine .list fun v hv => ?_
    obtain ⟨w, hw, rfl⟩ := List.mem_map.mp hv
    exact ih w hw
  | object fields =>
    rw [ofWire]
    exact faithful_objectText fields

/-- Faithful values come back from the wire, and nothing else than faithful values comes from it. -/
theorem faithful_exchange :
    (∀ v : Value, v.Faithful → (ofWire (toWire v)).eqv v = true) ∧
      ∀ w : Wire, w.Integral →
        (ofWire w).Faithful ∧ (ofWire (toWire (ofWire w))).eqv (ofWire w) = true :=
  ⟨fun _ h => eqv_ofWire_toWire h,
    fun _ h => ⟨faithful_ofWire h, eqv_ofWire_toWire (faithful_ofWire h)⟩⟩

theorem faithful_exchange_nested :
    let n : Number := ⟨.ofInt (15 * pow10 17), .scaled 18⟩
    let v : Value := .list [.nothing, .number n, .list [.string "1e3", .bool true]]
    let w : Wire := .array [.integer (-7), .string "0012.50", .object [("a", .array [.null])]]
    (ofWire (toWire v)).eqv v = true ∧
      (ofWire w).Faithful ∧ (ofWire (toWire (ofWire w))).eqv (ofWire w) = true := by
  intro n v w
  have parsed : Number.parse "1.5" = .ok ⟨.of 15 1, .plain⟩ := by decide +kernel
  have scaled : Number.exp ⟨.of 15 1, .plain⟩ = .ok n := by decide +kernel
  have thousand : Number.parse "1e3" = .ok ⟨.ofInt 1000, .scaled 3⟩ := by decide +kernel
  have notPlain (m : Number) (hm : Number.parse "1e3" = .ok m) : m.style ≠ .plain := by
    rw [thousand, Except.ok.injEq] at hm
    rw [← hm]
    nofun
  have faithful : v.Faithful := by
    refine .list ?_
    rw [List.forall_mem_cons, List.forall_mem_cons, List.forall_mem_singleton]
    refine ⟨.nothing, .number (.exp (.parsed parsed) scaled) (by decide +kernel), .list ?_⟩
    rw [List.forall_mem_cons, List.forall_mem_singleton]
    exact ⟨.string (by decide) notPlain, .bool true⟩
  have integral : w.Integral := by
    refine .array ?_
    rw [List.forall_mem_cons, List.forall_mem_cons, List.forall_mem_singleton]
    exact ⟨.integer _, .string _, .object _⟩
  exact ⟨faithful_exchange.1 v faithful, faithful_exchange.2 w integral⟩

end Value

end LedgerScript
