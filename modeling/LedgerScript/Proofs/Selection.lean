import LedgerScript.Proofs.Action
import LedgerScript.Language.Family

/-!
# Selection by verb

Verbs are compared without their letter case and the blanks around them. Among operations that
start with different verbs the first token alone decides: the operation of that verb is
the only one that may take the input, wherever it stands in its family.
-/

set_option autoImplicit false

namespace LedgerScript

namespace Text

theorem toNat_toLower_of_upper (c : Char) (h : c.val ≥ 'A'.val ∧ c.val ≤ 'Z'.val) :
    c.toLower.toNat = c.toNat + 32 ∧ 65 ≤ c.toNat ∧ c.toNat ≤ 90 := by
  have hlow : 65 ≤ c.toNat := UInt32.le_iff_toNat_le.mp h.1
  have hhigh : c.toNat ≤ 90 := UInt32.le_iff_toNat_le.mp h.2
  refine ⟨?_, hlow, hhigh⟩
  rw [Char.toLower, dif_pos h]
  change (c.val + ('a'.val - 'A'.val)).toNat = c.val.toNat + 32
  change c.val.toNat ≤ 90 at hhigh
  rw [UInt32.toNat_add]
  change (c.val.toNat + 32) % 2 ^ 32 = c.val.toNat + 32
  omega

theorem isBlank_eq_false (c : Char) (hlow : 48 ≤ c.toNat) (hhigh : c.toNat ≤ 122) :
    isBlank c = false := by
  simp only [isBlank, Bool.or_eq_false_iff, Bool.and_eq_false_iff, decide_eq_false_iff_not,
    beq_eq_false_iff_ne]
  omega

theorem isBlank_toLower (c : Char) : isBlank c.toLower = isBlank c := by
  by_cases h : c.val ≥ 'A'.val ∧ c.val ≤ 'Z'.val
  · obtain ⟨hlower, hlow, hhigh⟩ := toNat_toLower_of_upper c h
    rw [isBlank_eq_false c (by omega) (by omega),
      isBlank_eq_false c.toLower (by omega) (by omega)]
  · rw [Char.toLower, dif_neg h]

theorem dropWhile_isBlank_map_toLower (cs : List Char) :
    (cs.map Char.toLower).dropWhile isBlank = (cs.dropWhile isBlank).map Char.toLower := by
  rw [List.dropWhile_map]
  congr 2
  funext c
  exact isBlank_toLower c

theorem trim_map_toLower (cs : List Char) :
    trim (cs.map Char.toLower) = (trim cs).map Char.toLower := by
  rw [trim, trim, trimStart, trimEnd, dropWhile_isBlank_map_toLower, ← List.map_reverse,
    dropWhile_isBlank_map_toLower, ← List.map_reverse, trimStart, trimEnd]

theorem sameWord_iff (a b : String) :
    sameWord a b = true ↔ a.toList.map Char.toLower = b.toList.map Char.toLower := by
  rw [sameWord, beq_iff_eq, ← String.toList_inj, String.toLower, String.toLower, String.toList_map,
    String.toList_map]

def verbKey (word : String) : List Char := (trim word.toList).map Char.toLower

theorem verbKey_eq_of_sameWord {a b : String} (h : sameWord a b = true) :
    verbKey a = verbKey b := by
  rw [verbKey, verbKey, ← trim_map_toLower, ← trim_map_toLower, (sameWord_iff a b).mp h]

theorem mem_dropWhile_isBlank {c : Char} {cs : List Char} (hc : c ∈ cs) (h : isBlank c = false) :
    c ∈ cs.dropWhile isBlank := by
  rw [← List.takeWhile_append_dropWhile (p := isBlank) (l := cs), List.mem_append] at hc
  rcases hc with hc | hc
  · rw [List.mem_takeWhile_imp hc] at h
    cases h
  · exact hc

theorem mem_trim {c : Char} {cs : List Char} (hc : c ∈ cs) (h : isBlank c = false) :
    c ∈ trim cs := by
  rw [trim, trimStart, trimEnd, List.mem_reverse]
  exact mem_dropWhile_isBlank (List.mem_reverse.mpr (mem_dropWhile_isBlank hc h)) h

theorem digit_mem_verbKey {c : Char} {word : String} (hc : c ∈ word.toList)
    (h : c.isDigit = true) : c ∈ verbKey word := by
  obtain ⟨hlow, hhigh⟩ := Char.isDigit_iff_toNat.mp h
  have hlow : 48 ≤ c.toNat := hlow
  have hhigh : c.toNat ≤ 57 := hhigh
  have hblank : isBlank c = false := isBlank_eq_false c hlow (by omega)
  have hupper : ¬ (c.val ≥ 'A'.val ∧ c.val ≤ 'Z'.val) := by
    intro hc
    have := (toNat_toLower_of_upper c hc).2.1
    omega
  rw [verbKey, List.mem_map]
  exact ⟨c, mem_trim hc hblank, by rw [Char.toLower, dif_neg hupper]⟩

end Text

theorem verbMatches_atom (verb word : String) :
    verbMatches verb (.atom word) = (Text.verbKey word == Text.verbKey verb) := by
  rw [verbMatches, Bool.eq_iff_iff, Text.sameWord_iff, beq_iff_eq, Text.trimmed, Text.trimmed,
    String.toList_ofList, String.toList_ofList]
  rfl

variable {σ : Type}

namespace Operation

def key (op : Operation σ) : List (List Char) := op.verb.map Text.verbKey

/-- The operation starts with a verb of one word. -/
def LeadsWithVerb (op : Operation σ) : Prop := op.position = 0 ∧ op.verb.length = 1

instance (op : Operation σ) : Decidable op.LeadsWithVerb :=
  inferInstanceAs (Decidable (op.position = 0 ∧ op.verb.length = 1))

theorem hasVerb_iff_key {op : Operation σ} (h : op.LeadsWithVerb) (word : String)
    (args : List Event) :
    op.hasVerb (.atom word :: args) = true ↔ op.key = [Text.verbKey word] := by
  obtain ⟨hposition, hlength⟩ := h
  obtain ⟨verb, hverb⟩ := List.length_eq_one_iff.mp hlength
  have hfits : 0 + 1 ≤ args.length + 1 := by omega
  rw [hasVerb, key, hposition, hverb, List.length_singleton, List.length_cons,
    decide_eq_true hfits, Bool.true_and, List.drop_zero, List.zip_cons_cons, List.zip_nil_left,
    List.all_cons, List.all_nil, Bool.and_true, List.map_singleton, List.singleton_inj]
  show verbMatches verb (.atom word) = true ↔ _
  rw [verbMatches_atom, beq_iff_eq]
  exact eq_comm

theorem hasVerb_list {op : Operation σ} (h : op.LeadsWithVerb) (es rest : List Event) :
    op.hasVerb (.list es :: rest) = false := by
  obtain ⟨hposition, hlength⟩ := h
  obtain ⟨verb, hverb⟩ := List.length_eq_one_iff.mp hlength
  rw [hasVerb, hposition, hverb, List.drop_zero, List.zip_cons_cons, List.zip_nil_left,
    List.all_cons]
  exact Bool.and_false _

theorem arguments_of_hasVerb {op : Operation σ} (h : op.LeadsWithVerb) {word : String}
    {args : List Event} (hword : op.hasVerb (.atom word :: args) = true) :
    op.arguments (.atom word :: args) = .ok args := by
  obtain ⟨hposition, hlength⟩ := h
  rw [arguments, if_pos hword, hposition, hlength]
  rfl

theorem find?_hasVerb {ops : List (Operation σ)} (leads : ∀ op ∈ ops, op.LeadsWithVerb)
    (distinct : (ops.map key).Nodup) {op : Operation σ} (mem : op ∈ ops) {word : String}
    (hkey : op.key = [Text.verbKey word]) (args : List Event) :
    ops.find? (fun q => q.hasVerb (.atom word :: args)) = some op := by
  induction ops with
  | nil => cases mem
  | cons p rest ih =>
    rw [List.map_cons, List.nodup_cons] at distinct
    rw [List.find?_cons]
    cases hp : p.hasVerb (.atom word :: args) with
    | true =>
      have hpkey := (hasVerb_iff_key (leads p List.mem_cons_self) word args).mp hp
      rcases List.mem_cons.mp mem with rfl | hrest
      · rfl
      · have hin : p.key ∈ rest.map key := by
          rw [hpkey, ← hkey]
          exact List.mem_map_of_mem hrest
        exact absurd hin distinct.1
    | false =>
      rcases List.mem_cons.mp mem with rfl | hrest
      · rw [(hasVerb_iff_key (leads op List.mem_cons_self) word args).mpr hkey] at hp
        cases hp
      · exact ih (fun q hq => leads q (List.mem_cons_of_mem p hq)) distinct.2 hrest

theorem eq_of_hasVerb {ops : List (Operation σ)} (leads : ∀ op ∈ ops, op.LeadsWithVerb)
    (distinct : (ops.map key).Nodup) {op q : Operation σ} (mem : op ∈ ops) (memq : q ∈ ops)
    {word : String} (hkey : op.key = [Text.verbKey word]) {args : List Event}
    (hverb : q.hasVerb (.atom word :: args) = true) : q = op := by
  have hq := (hasVerb_iff_key (leads q memq) word args).mp hverb
  exact List.inj_on_of_nodup_map distinct memq mem (hq.trans hkey.symm)

theorem bind_of_arguments {op : Operation σ} {tokens args : List Event}
    (h : op.arguments tokens = .ok args) (scope : Scope σ) :
    op.bind scope tokens = Arguments.bind scope op.params args false := by
  rw [bind, h]
  rfl

theorem bind_of_not_hasVerb {op : Operation σ} {tokens : List Event}
    (h : op.hasVerb tokens = false) (scope : Scope σ) (s : σ) :
    op.bind scope tokens s = (.error (.verb op.verbText op.position), s) := by
  rw [bind, arguments, if_neg (by simp [h])]
  rfl

end Operation

namespace Family

variable {bindOp : Operation σ → LedgerM σ Refusal Arguments} {op : Operation σ}
  {rest ops : List (Operation σ)} {scope : Scope σ} {tokens : List Event} {b : Arguments}
  {s t u : σ}

theorem firstOf_cons_of_ok (h : bindOp op s = (.ok b, t)) :
    firstOf bindOp (op :: rest) s = (.ok (op, b), t) := by
  rw [firstOf]
  exact LedgerM.handle_ok (LedgerM.map_ok h _) _

theorem firstOf_cons_of_error {e : Refusal} (h : bindOp op s = (.error e, t)) :
    firstOf bindOp (op :: rest) s =
      (firstOf bindOp rest).restate (⟨op.usage, e⟩ :: ·) t := by
  rw [firstOf]
  exact LedgerM.handle_error (LedgerM.map_error h _) _

theorem firstOf_of_find? (found : ops.find? (fun q => q.hasVerb tokens) = some op)
    (bound : op.bind scope tokens s = (.ok b, t)) :
    firstOf (fun q => q.bind scope tokens) ops s = (.ok (op, b), t) := by
  induction ops with
  | nil => cases found
  | cons p rest ih =>
    rw [List.find?_cons] at found
    cases hp : p.hasVerb tokens with
    | true =>
      rw [hp] at found
      cases found
      exact firstOf_cons_of_ok bound
    | false =>
      rw [hp] at found
      rw [firstOf_cons_of_error (Operation.bind_of_not_hasVerb hp scope s)]
      exact LedgerM.restate_ok (ih found) _

theorem firstOf_of_refused
    (refused : ∀ op ∈ ops, op.hasVerb tokens = true → ∃ r, op.bind scope tokens s = (.error r, s)) :
    ∃ attempts, firstOf (fun q => q.bind scope tokens) ops s = (.error attempts, s) := by
  induction ops with
  | nil => exact ⟨[], rfl⟩
  | cons p rest ih =>
    obtain ⟨attempts, hrest⟩ := ih (fun op hop => refused op (List.mem_cons_of_mem p hop))
    have hp : ∃ r, p.bind scope tokens s = (.error r, s) := by
      cases hverb : p.hasVerb tokens with
      | true => exact refused p List.mem_cons_self hverb
      | false => exact ⟨_, Operation.bind_of_not_hasVerb hverb scope s⟩
    obtain ⟨r, hbind⟩ := hp
    refine ⟨⟨p.usage, r⟩ :: attempts, ?_⟩
    rw [firstOf_cons_of_error hbind, LedgerM.restate_apply, hrest]
    rfl

theorem mem_of_firstOf (h : firstOf bindOp ops s = (.ok (op, b), t)) : op ∈ ops := by
  induction ops generalizing s with
  | nil => cases h
  | cons p rest ih =>
    rcases hp : bindOp p s with ⟨r | c, u⟩
    · rw [firstOf_cons_of_error hp] at h
      exact List.mem_cons_of_mem p (ih (LedgerM.restate_eq_ok.mp h))
    · rw [firstOf_cons_of_ok hp] at h
      cases h
      exact List.mem_cons_self

theorem bound_of_firstOf (h : firstOf bindOp ops s = (.ok (op, b), t)) :
    ∃ u, bindOp op u = (.ok b, t) := by
  induction ops generalizing s with
  | nil => cases h
  | cons p rest ih =>
    rcases hp : bindOp p s with ⟨r | c, u⟩
    · rw [firstOf_cons_of_error hp] at h
      exact ih (LedgerM.restate_eq_ok.mp h)
    · rw [firstOf_cons_of_ok hp] at h
      cases h
      exact ⟨s, hp⟩

theorem firstOf_singleton_eq_ok {p : Operation σ} (h : firstOf bindOp [p] s = (.ok (op, b), t)) :
    op = p ∧ bindOp p s = (.ok b, t) := by
  rcases hp : bindOp p s with ⟨r | c, u⟩
  · rw [firstOf_cons_of_error hp] at h
    cases h
  · rw [firstOf_cons_of_ok hp] at h
    cases h
    exact ⟨rfl, rfl⟩

theorem select_eq_ok {f : Family σ} (h : f.select scope tokens s = (.ok (op, b), t)) :
    op ∈ f.regular ∨ ∃ attempts u,
      firstOf (fun q => q.bind scope tokens) f.regular s = (.error attempts, u) ∧
      firstOf (fun q => q.bindFallback scope tokens) f.fallbacks u = (.ok (op, b), t) := by
  rcases hregular : firstOf (fun q => q.bind scope tokens) f.regular s with ⟨attempts | ⟨q, c⟩, u⟩
  · rw [select, LedgerM.handle_error hregular] at h
    exact .inr ⟨attempts, u, rfl, LedgerM.restate_eq_ok.mp h⟩
  · rw [select, LedgerM.handle_ok hregular] at h
    cases h
    exact .inl (mem_of_firstOf hregular)

theorem select_of_regular {f : Family σ}
    (h : firstOf (fun q => q.bind scope tokens) f.regular s = (.ok (op, b), t)) :
    f.select scope tokens s = (.ok (op, b), t) := by
  rw [select]
  exact LedgerM.handle_ok h _

theorem select_of_fallback {f : Family σ} {attempts : List Attempt}
    (refused : firstOf (fun q => q.bind scope tokens) f.regular s = (.error attempts, t))
    (h : firstOf (fun q => q.bindFallback scope tokens) f.fallbacks t = (.ok (op, b), u)) :
    f.select scope tokens s = (.ok (op, b), u) := by
  rw [select, LedgerM.handle_error refused]
  exact LedgerM.restate_ok h _

theorem mem_operations_of_select {f : Family σ}
    (h : f.select scope tokens s = (.ok (op, b), t)) : op ∈ f.operations := by
  rcases select_eq_ok h with mem | ⟨attempts, u, -, fallback⟩
  · exact List.mem_of_mem_filter mem
  · exact List.mem_of_mem_filter (mem_of_firstOf fallback)

theorem bound_of_select {f : Family σ} (h : f.select scope tokens s = (.ok (op, b), t)) :
    ∃ args allowExtra u, Arguments.bind scope op.params args allowExtra u = (.ok b, t) := by
  rcases hregular : firstOf (fun q => q.bind scope tokens) f.regular s with ⟨attempts | ⟨q, c⟩, u⟩
  · rw [select, LedgerM.handle_error hregular] at h
    obtain ⟨d, hbound⟩ := bound_of_firstOf (LedgerM.restate_eq_ok.mp h)
    exact ⟨tokens, true, d, hbound⟩
  · rw [select, LedgerM.handle_ok hregular] at h
    cases h
    obtain ⟨d, hbound⟩ := bound_of_firstOf hregular
    obtain ⟨args, e, -, hargs⟩ := LedgerM.bind_eq_ok.mp hbound
    exact ⟨args, false, e, hargs⟩

/-- In a family whose regular operations start with different verbs, the operation of the first
token is selected as soon as it takes the other tokens. -/
theorem select_of_key {f : Family σ} (leads : ∀ q ∈ f.regular, q.LeadsWithVerb)
    (distinct : (f.regular.map Operation.key).Nodup) (mem : op ∈ f.regular) {word : String}
    (hkey : op.key = [Text.verbKey word]) {args : List Event}
    (bound : Arguments.bind scope op.params args false s = (.ok b, t)) :
    f.select scope (.atom word :: args) s = (.ok (op, b), t) := by
  have hverb := (Operation.hasVerb_iff_key (leads op mem) word args).mpr hkey
  have harguments := Operation.arguments_of_hasVerb (leads op mem) hverb
  rw [← Operation.bind_of_arguments harguments scope] at bound
  have found := Operation.find?_hasVerb leads distinct mem hkey args
  exact select_of_regular (firstOf_of_find? found bound)

/-- The regular operations start with these verbs, one each. -/
def LeadsWith (f : Family σ) (verbs : List String) : Prop :=
  f.regular.map (fun op => (op.position, op.verb)) = verbs.map (fun verb => (0, [verb]))

namespace LeadsWith

variable {f : Family σ} {verbs : List String}

theorem exists_verb (h : f.LeadsWith verbs) (mem : op ∈ f.regular) :
    ∃ verb ∈ verbs, op.position = 0 ∧ op.verb = [verb] := by
  have hpair := List.mem_map_of_mem (f := fun op : Operation σ => (op.position, op.verb)) mem
  rw [h, List.mem_map] at hpair
  obtain ⟨verb, hverb, heq⟩ := hpair
  obtain ⟨hposition, hword⟩ := Prod.mk.inj heq
  exact ⟨verb, hverb, hposition.symm, hword.symm⟩

theorem leadsWithVerb (h : f.LeadsWith verbs) (mem : op ∈ f.regular) : op.LeadsWithVerb := by
  obtain ⟨verb, -, hposition, hverb⟩ := h.exists_verb mem
  exact ⟨hposition, by rw [hverb]; rfl⟩

theorem nodup_keys (h : f.LeadsWith verbs)
    (distinct : (verbs.map (fun verb => [Text.verbKey verb])).Nodup) :
    (f.regular.map Operation.key).Nodup := by
  have hkeys := congrArg (List.map (fun p => p.2.map Text.verbKey)) h
  rw [List.map_map, List.map_map] at hkeys
  change f.regular.map Operation.key = _ at hkeys
  rw [hkeys]
  exact distinct

end LeadsWith

end Family

end LedgerScript
