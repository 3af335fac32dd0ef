import LedgerScript.Proofs.Footprint

/-!
# Lines that no operation takes

A line is offered to the commands of its head word and then to the values of that word: in each
family to the operations that are no fallbacks, in their order, and then to the fallbacks. It
matches nothing just if all of these refuse it. The report then has one attempt for each of them,
in the order in which they were tried, and a guide to each in the order of declaration.
-/

set_option autoImplicit false

namespace LedgerScript

variable {σ : Type}

/-- Offers the tokens after the head word to an operation. A fallback need not take all of them. -/
def Operation.offer (op : Operation σ) (scope : Scope σ) (tokens : List Event) :
    LedgerM σ Refusal Arguments :=
  if op.isFallback then op.bindFallback scope tokens else op.bind scope tokens

theorem Operation.within_offer {R : σ → σ → Prop} [IsPreorder σ R] {scope : Scope σ}
    {op : Operation σ} (h : op.ReadsWithin R scope) (tokens : List Event) :
    (op.offer scope tokens).Within R := by
  rw [offer]
  split
  · exact Arguments.within_bind h tokens true
  · exact op.within_bind h tokens

/-- The operations refuse the tokens one after the other, each with the reason of its attempt and
on the ledger that the attempts before it left. -/
inductive Refused (scope : Scope σ) (tokens : List Event) :
    List (Operation σ) → List Attempt → σ → σ → Prop
  | nil (s : σ) : Refused scope tokens [] [] s s
  | cons {op : Operation σ} {ops : List (Operation σ)} {r : Refusal} {attempts : List Attempt}
      {s t u : σ} (refused : op.offer scope tokens s = (.error r, t))
      (rest : Refused scope tokens ops attempts t u) :
      Refused scope tokens (op :: ops) (⟨op.usage, r⟩ :: attempts) s u

namespace Refused

variable {scope : Scope σ} {tokens : List Event} {ops others : List (Operation σ)}
  {attempts more : List Attempt} {s t u : σ}

theorem append (h : Refused scope tokens ops attempts s t)
    (k : Refused scope tokens others more t u) :
    Refused scope tokens (ops ++ others) (attempts ++ more) s u := by
  induction h with
  | nil s => exact k
  | cons refused _ ih => exact .cons refused (ih k)

theorem of_append (h : Refused scope tokens (ops ++ others) attempts s u) :
    ∃ first second t, attempts = first ++ second ∧ Refused scope tokens ops first s t ∧
      Refused scope tokens others second t u := by
  induction ops generalizing attempts s with
  | nil => exact ⟨[], attempts, s, rfl, .nil s, h⟩
  | cons op ops ih =>
    cases h with
    | @cons _ _ r attempts _ t _ refused rest =>
      obtain ⟨first, second, v, rfl, hfirst, hsecond⟩ := ih rest
      exact ⟨⟨op.usage, r⟩ :: first, second, v, rfl, .cons refused hfirst, hsecond⟩

theorem iff_alone (quiet : ∀ op ∈ ops, op.ReadsWithin Eq scope) :
    Refused scope tokens ops attempts s t ↔
      t = s ∧ List.Forall₂ (fun op a => a.usage = op.usage ∧
        op.offer scope tokens s = (.error a.refusal, s)) ops attempts := by
  constructor
  · intro h
    induction h with
    | nil s => exact ⟨rfl, .nil⟩
    | @cons op ops r attempts s t u refused rest ih =>
      obtain ⟨hop, hops⟩ := List.forall_mem_cons.mp quiet
      have same := op.within_offer hop tokens s
      rw [refused] at same
      subst same
      exact ⟨(ih hops).1, .cons ⟨rfl, refused⟩ (ih hops).2⟩
  · rintro ⟨rfl, h⟩
    induction h with
    | nil => exact .nil t
    | @cons op a ops attempts ha _ ih =>
      obtain ⟨usage, r⟩ := a
      obtain ⟨rfl, refused⟩ := ha
      exact .cons refused (ih (List.forall_mem_cons.mp quiet).2)

end Refused

namespace Family

/-- The operations in the order in which they are offered the tokens. -/
def candidates (f : Family σ) : List (Operation σ) := f.regular ++ f.fallbacks

theorem candidates_perm (f : Family σ) : f.candidates.Perm f.operations := by
  have h := List.filter_append_perm (fun op : Operation σ => !op.isFallback) f.operations
  simpa [candidates, regular, fallbacks] using h

variable {scope : Scope σ} {tokens : List Event} {s t : σ}

theorem firstOf_eq_error_iff {bindOp : Operation σ → LedgerM σ Refusal Arguments}
    {ops : List (Operation σ)} (offers : ∀ op ∈ ops, bindOp op = op.offer scope tokens)
    {attempts : List Attempt} :
    firstOf bindOp ops s = (.error attempts, t) ↔ Refused scope tokens ops attempts s t := by
  induction ops generalizing s attempts with
  | nil =>
    constructor
    · intro h
      cases h
      exact .nil _
    · intro h
      cases h
      rfl
  | cons op ops ih =>
    have hop := offers op List.mem_cons_self
    have hrest (s : σ) (attempts : List Attempt) :
        firstOf bindOp ops s = (.error attempts, t) ↔ Refused scope tokens ops attempts s t :=
      ih fun q hq => offers q (List.mem_cons_of_mem op hq)
    rcases hp : bindOp op s with ⟨r | b, u⟩
    · rw [firstOf_cons_of_error hp, LedgerM.restate_eq_error]
      constructor
      · rintro ⟨more, hmore, rfl⟩
        exact .cons (hop ▸ hp) ((hrest u more).mp hmore)
      · intro h
        cases h with
        | @cons _ _ r' more _ v _ refused rest =>
          rw [← hop, hp] at refused
          cases refused
          exact ⟨more, (hrest u more).mpr rest, rfl⟩
    · rw [firstOf_cons_of_ok hp]
      constructor
      · intro h
        cases h
      · intro h
        cases h with
        | cons refused rest =>
          rw [← hop, hp] at refused
          cases refused

theorem regular_offers {f : Family σ} :
    ∀ op ∈ f.regular, op.bind scope tokens = op.offer scope tokens := by
  intro op mem
  have hop := (List.mem_filter.mp mem).2
  rw [Operation.offer, if_neg (by simpa using hop)]

theorem fallbacks_offer {f : Family σ} :
    ∀ op ∈ f.fallbacks, op.bindFallback scope tokens = op.offer scope tokens := by
  intro op mem
  rw [Operation.offer, if_pos (List.mem_filter.mp mem).2]

theorem firstOf_append (bindOp : Operation σ → LedgerM σ Refusal Arguments)
    (ops more : List (Operation σ)) :
    firstOf bindOp (ops ++ more) =
      (firstOf bindOp ops).handle fun rejected =>
        (firstOf bindOp more).restate (rejected ++ ·) := by
  induction ops with
  | nil => exact (LedgerM.restate_id _).symm
  | cons op ops ih =>
    rw [List.cons_append, firstOf, firstOf, ih, LedgerM.handle_handle]
    refine congrArg _ (funext fun e => ?_)
    rw [LedgerM.restate_handle, LedgerM.handle_restate]
    exact congrArg _ (funext fun rejected => LedgerM.restate_restate _ _ _)

theorem firstOf_congr {f g : Operation σ → LedgerM σ Refusal Arguments} {ops : List (Operation σ)}
    (same : ∀ op ∈ ops, f op = g op) : firstOf f ops = firstOf g ops := by
  induction ops with
  | nil => rfl
  | cons op ops ih =>
    rw [firstOf, firstOf, same op List.mem_cons_self,
      ih fun q hq => same q (List.mem_cons_of_mem op hq)]

theorem select_eq_firstOf (f : Family σ) (scope : Scope σ) (tokens : List Event) :
    f.select scope tokens =
      (firstOf (·.offer scope tokens) f.candidates).restate (f.noMatch tokens) := by
  rw [select, firstOf_congr regular_offers, firstOf_congr fallbacks_offer, candidates,
    firstOf_append, LedgerM.restate_handle]
  exact congrArg _ (funext fun rejected => (LedgerM.restate_restate _ _ _).symm)

theorem select_eq_error_iff {f : Family σ} {n : NoMatch} :
    f.select scope tokens s = (.error n, t) ↔
      ∃ attempts, n = f.noMatch tokens attempts ∧
        Refused scope tokens f.candidates attempts s t := by
  rw [select_eq_firstOf, LedgerM.restate_eq_error]
  constructor
  · rintro ⟨attempts, h, rfl⟩
    exact ⟨attempts, rfl, (firstOf_eq_error_iff fun _ _ => rfl).mp h⟩
  · rintro ⟨attempts, rfl, h⟩
    exact ⟨attempts, (firstOf_eq_error_iff fun _ _ => rfl).mpr h, rfl⟩

end Family

namespace Vocabulary

def familiesNamed (v : Vocabulary σ) (name : String) : List (Family σ) :=
  (v.commandFamily? name).toList ++ (v.valueFamily? name).toList

/-- The families that the head word of a line names. -/
def familiesOf (v : Vocabulary σ) (e : Event) : List (Family σ) :=
  (e.unwrapped.head?.map v.familiesNamed).getD []

variable {v : Vocabulary σ} {e : Event}

theorem familiesOf_of_tokens {name : String} {rest : List Event}
    (h : e.unwrapped.tokens = .atom name :: rest) : v.familiesOf e = v.familiesNamed name := by
  rw [familiesOf, Event.head?, h]
  rfl

theorem familiesOf_of_headless (h : e.unwrapped.tokens.head?.bind Event.atom? = none) :
    v.familiesOf e = [] := by
  rw [familiesOf, Event.head?, h]
  rfl

end Vocabulary

/-- A report of families that refused some tokens: it speaks of the first of them, and guides to the
operations of all, each under the name of its family and with its documentation cleaned. -/
def NoMatch.Reports (n : NoMatch) (families : List (Family σ)) (tokens : List Event) : Prop :=
  (∃ f, families.head? = some f ∧ n.family = f.name ∧
    n.input = " ".intercalate ([f.name].filter (· ≠ "") ++ tokens.map Event.text)) ∧
  n.guides = families.flatMap fun f => f.operations.map fun op =>
    ⟨" ".intercalate ([f.name, op.usage].filter (· ≠ "")), Text.cleanDoc op.doc⟩

theorem Family.noMatch_eq (f : Family σ) (tokens : List Event) (attempts : List Attempt) :
    f.noMatch tokens attempts = {
      family := f.name
      input := " ".intercalate ([f.name].filter (· ≠ "") ++ tokens.map Event.text)
      attempts
      guides := f.operations.map fun op =>
        ⟨" ".intercalate ([f.name, op.usage].filter (· ≠ "")), Text.cleanDoc op.doc⟩ } := by
  have input : inputText f.name tokens =
      " ".intercalate ([f.name].filter (· ≠ "") ++ tokens.map Event.text) := by
    rw [inputText]
    by_cases named : f.name = "" <;> simp [named]
  have guide (op : Operation σ) : f.guideTo op =
      ⟨" ".intercalate ([f.name, op.usage].filter (· ≠ "")), Text.cleanDoc op.doc⟩ := by
    rw [← guideTo_usage, ← guideTo_doc]
  rw [noMatch, input, List.map_congr_left fun op _ => guide op]

namespace NoMatch.Reports

variable {f g : Family σ} {n : NoMatch} {tokens : List Event}

theorem single_iff : n.Reports [f] tokens ↔ f.noMatch tokens n.attempts = n := by
  obtain ⟨family, input, attempts, guides⟩ := n
  rw [eq_comm, Family.noMatch_eq, NoMatch.mk.injEq, Reports, List.flatMap_singleton]
  simp only [List.head?_cons, Option.some.injEq, exists_eq_left', and_assoc, true_and]

theorem pair_iff {tried more : List Attempt} (all : n.attempts = tried ++ more) :
    n.Reports [f, g] tokens ↔ (f.noMatch tokens tried).merge (g.noMatch tokens more) = n := by
  obtain ⟨family, input, attempts, guides⟩ := n
  obtain rfl : attempts = tried ++ more := all
  rw [eq_comm, Family.noMatch_eq, Family.noMatch_eq, NoMatch.merge, NoMatch.mk.injEq, Reports,
    List.flatMap_cons, List.flatMap_singleton]
  simp only [List.head?_cons, Option.some.injEq, exists_eq_left', and_assoc, true_and]

end NoMatch.Reports

namespace Line

/-- Whether the line sets options of transactions, even if its parts are missing. -/
def isForm : Line → Bool
  | .plain _ _ => false
  | .headless => false
  | _ => true

theorem ofTokens_without_form {tokens : List Event} (h : (ofTokens tokens).isForm = false) :
    (∃ name rest, tokens = .atom name :: rest ∧ ofTokens tokens = .plain name rest) ∨
      tokens.head?.bind Event.atom? = none ∧ ofTokens tokens = .headless := by
  rcases tokens with _ | ⟨name | es, rest⟩
  · exact .inr ⟨rfl, rfl⟩
  · refine .inl ⟨name, rest, rfl, ?_⟩
    rw [ofTokens.eq_def] at h ⊢
    dsimp only at h ⊢
    split at h
    · split at h <;> cases h
    · next noFrom =>
      split at h
      · split at h <;> cases h
      · next noTrx => rw [if_neg noFrom, if_neg noTrx]
  · exact .inr ⟨rfl, rfl⟩

end Line

namespace Runner

variable {i : Runner σ} {scope : Scope σ} {name : String} {rest : List Event} {s t : σ}
  {n : NoMatch}

section Operations

theorem recovering_ne_noMatch {α : Type} {w : World} {kind : Kind} {x : LedgerM σ Failure α}
    {done : α → Outcome} :
    ((done <$> x).handle (fun e => .ofExcept (i.recovered w e kind))) s ≠
      (.error (.noMatch n), t) := by
  intro h
  rcases hx : x s with ⟨f | a, u⟩
  · rw [recovering_of_error hx, recovered] at h
    injection h with hresult
    split at hresult <;> cases hresult
  · rw [LedgerM.handle_ok (LedgerM.map_ok hx done)] at h
    cases h

theorem runChange_ne_noMatch (op : Operation σ) (b : Arguments) :
    i.runChange scope op b s ≠ (.error (.noMatch n), t) := by
  intro h
  rw [runChange_eq] at h
  split at h
  · cases h
  · exact recovering_ne_noMatch h

theorem runFetch_ne_noMatch (op : Operation σ) (b : Arguments) (e : Event) :
    i.runFetch scope op b e s ≠ (.error (.noMatch n), t) :=
  recovering_ne_noMatch

end Operations

theorem runValueLine_noMatch_iff {f : Family σ} (named : i.vocabulary.valueFamily? name = some f)
    (e : Event) (unmatched : Option NoMatch) :
    i.runValueLine scope e name rest unmatched s = (.error (.noMatch n), t) ↔
      ∃ m, f.select scope rest s = (.error m, t) ∧ (unmatched.map (·.merge m)).getD m = n := by
  rw [runValueLine_named named, LedgerM.bind_eq_error, LedgerM.restate_eq_error]
  constructor
  · rintro (⟨m, refused, hm⟩ | ⟨⟨op, b⟩, u, -, fetched⟩)
    · injection hm with hm
      exact ⟨m, refused, hm⟩
    · exact absurd fetched (runFetch_ne_noMatch op b e)
  · rintro ⟨m, refused, rfl⟩
    exact .inl ⟨m, refused, rfl⟩

theorem runValueLine_noMatch_iff_unnamed (unnamed : i.vocabulary.valueFamily? name = none)
    (e : Event) (unmatched : Option NoMatch) :
    i.runValueLine scope e name rest unmatched s = (.error (.noMatch n), t) ↔
      unmatched = some n ∧ s = t := by
  rw [runValueLine_unnamed unnamed]
  cases unmatched with
  | none =>
    constructor
    · intro h
      cases h
    · rintro ⟨h, -⟩
      cases h
  | some m =>
    constructor
    · intro h
      cases h
      exact ⟨rfl, rfl⟩
    · rintro ⟨h, rfl⟩
      cases h
      rfl

theorem runPlain_noMatch_iff {f : Family σ} (named : i.vocabulary.commandFamily? name = some f)
    (e : Event) :
    i.runPlain scope e name rest s = (.error (.noMatch n), t) ↔
      ∃ m u, f.select scope rest s = (.error m, u) ∧
        i.runValueLine scope e name rest (some m) u = (.error (.noMatch n), t) := by
  constructor
  · intro h
    rcases selected : f.select scope rest s with ⟨m | ⟨op, b⟩, u⟩
    · rw [runPlain_refused named selected] at h
      exact ⟨m, u, rfl, h⟩
    · rw [runPlain_selected named selected] at h
      exact absurd h (runChange_ne_noMatch op b)
  · rintro ⟨m, u, refused, h⟩
    rw [runPlain_refused named refused]
    exact h

/-- A line of a head word matches nothing just if it names a family and all candidates of its
families refuse the tokens. -/
theorem runPlain_noMatch_iff_refused (e : Event) :
    i.runPlain scope e name rest s = (.error (.noMatch n), t) ↔
      n.Reports (i.vocabulary.familiesNamed name) rest ∧
        Refused scope rest ((i.vocabulary.familiesNamed name).flatMap Family.candidates)
          n.attempts s t := by
  -- an operation that was selected ends in no such report, so a family that has one drops out
  rw [Vocabulary.familiesNamed]
  cases commands : i.vocabulary.commandFamily? name with
  | none =>
    rw [runPlain_unnamed commands]
    cases values : i.vocabulary.valueFamily? name with
    | none =>
      rw [runValueLine_noMatch_iff_unnamed values]
      simp [NoMatch.Reports]
    | some g =>
      simp only [runValueLine_noMatch_iff values, Family.select_eq_error_iff]
      rw [Option.toList_none, Option.toList_some, List.nil_append, List.flatMap_singleton,
        NoMatch.Reports.single_iff]
      constructor
      · rintro ⟨m, ⟨attempts, rfl, refused⟩, rfl⟩
        exact ⟨rfl, refused⟩
      · rintro ⟨hn, refused⟩
        exact ⟨_, ⟨n.attempts, rfl, refused⟩, hn⟩
  | some f =>
    rw [runPlain_noMatch_iff commands]
    cases values : i.vocabulary.valueFamily? name with
    | none =>
      simp only [runValueLine_noMatch_iff_unnamed values, Family.select_eq_error_iff]
      rw [Option.toList_none, Option.toList_some, List.append_nil, List.flatMap_singleton,
        NoMatch.Reports.single_iff]
      constructor
      · rintro ⟨m, u, ⟨attempts, rfl, refused⟩, hn, rfl⟩
        cases hn
        exact ⟨rfl, refused⟩
      · rintro ⟨hn, refused⟩
        exact ⟨n, t, ⟨n.attempts, hn.symm, refused⟩, rfl, rfl⟩
    | some g =>
      simp only [runValueLine_noMatch_iff values, Family.select_eq_error_iff]
      rw [Option.toList_some, Option.toList_some, List.singleton_append, List.flatMap_cons,
        List.flatMap_singleton]
      constructor
      · rintro ⟨m, u, ⟨tried, rfl, hf⟩, m', ⟨more, rfl, hg⟩, rfl⟩
        exact ⟨(NoMatch.Reports.pair_iff rfl).mpr rfl, hf.append hg⟩
      · rintro ⟨reports, refused⟩
        obtain ⟨tried, more, u, all, hf, hg⟩ := refused.of_append
        have hn := (NoMatch.Reports.pair_iff all).mp reports
        exact ⟨_, u, ⟨tried, rfl, hf⟩, _, ⟨more, rfl, hg⟩, hn⟩

/-- A line that is no form matches nothing just if its head word names a family and all candidates
of its families, of which every operation is one, refuse the tokens after that word in their order.
Then the report guides to all these operations and has the attempts of the candidates. If
readings leave the ledger as it is, each attempt is what its operation alone answers. -/
theorem noMatch_reports_candidates (i : Runner σ) (w : World) (last : Option Failure) (e : Event)
    (noForm : (Line.of e).isForm = false) (s : σ) :
    let scope := i.vocabulary.scope w last
    let tokens := e.unwrapped.tokens.drop 1
    let families := i.vocabulary.familiesOf e
    let candidates := families.flatMap Family.candidates
    (∀ n t, i.process ⟨w, last⟩ e s = (.error (.noMatch n), t) ↔
      n.Reports families tokens ∧ Refused scope tokens candidates n.attempts s t) ∧
    ((∃ n t, i.process ⟨w, last⟩ e s = (.error (.noMatch n), t)) ↔
      families ≠ [] ∧ ∃ attempts t, Refused scope tokens candidates attempts s t) ∧
    candidates.Perm (families.flatMap Family.operations) ∧
    ((∀ op ∈ candidates, op.ReadsWithin Eq scope) → ∀ attempts t,
      Refused scope tokens candidates attempts s t ↔
        t = s ∧ List.Forall₂ (fun op a => a.usage = op.usage ∧
          op.offer scope tokens s = (.error a.refusal, s)) candidates attempts) := by
  intro scope tokens families candidates
  have decided (n : NoMatch) (t : σ) : i.process ⟨w, last⟩ e s = (.error (.noMatch n), t) ↔
      n.Reports families tokens ∧ Refused scope tokens candidates n.attempts s t := by
    rw [process, route_eq]
    rcases Line.ofTokens_without_form noForm with ⟨name, rest, htokens, line⟩ | ⟨headless, line⟩
    · have named : families = i.vocabulary.familiesNamed name :=
        Vocabulary.familiesOf_of_tokens htokens
      have after : tokens = rest := congrArg (List.drop 1) htokens
      change _ ↔ _ ∧ Refused scope tokens (families.flatMap Family.candidates) n.attempts s t
      rw [Line.of, line, named, after]
      exact runPlain_noMatch_iff_refused e.unwrapped
    · have unnamed : families = [] := Vocabulary.familiesOf_of_headless headless
      rw [Line.of, line, unnamed]
      constructor
      · intro h
        cases h
      · rintro ⟨⟨⟨f, first, -⟩, -⟩, -⟩
        cases first
  refine ⟨decided, ?_, ?_, ?_⟩
  · constructor
    · rintro ⟨n, t, h⟩
      obtain ⟨⟨⟨f, first, -⟩, -⟩, refused⟩ := (decided n t).mp h
      refine ⟨?_, n.attempts, t, refused⟩
      rintro hnil
      rw [hnil] at first
      cases first
    · rintro ⟨hne, attempts, t, refused⟩
      obtain ⟨f, more, hfamilies⟩ := List.exists_cons_of_ne_nil hne
      refine ⟨⟨f.name, _, attempts, _⟩, t, (decided _ t).mpr ⟨⟨⟨f, ?_, rfl, rfl⟩, rfl⟩, refused⟩⟩
      rw [hfamilies]
      rfl
  · exact List.Perm.flatMap_left families fun f _ => f.candidates_perm
  · exact fun quiet attempts t => Refused.iff_alone quiet

def helping : Operation Unit :=
  .view "" [{ name := "topic", shape := .oneOf ["Help"], catchall := true }]
    (fun scope _ => return scope.world)
    "\n    Helps with a topic.  \n\n      Vault Help\n  "

def opening : Operation Unit :=
  .command "Open" [{ name := "vault", shape := .address }] (fun scope _ => return scope.world)
    "Opens a vault."

def counting : Operation Unit :=
  .fetcher "Count" [] (fun _ _ => return .nothing) "Counts what is in the vault."

def vaultCommands : Family Unit :=
  ⟨"Vault", [helping, opening], Family.wellFormed_of_complaint? _ rfl⟩

def vaultValues : Family Unit := ⟨"Vault", [counting], Family.wellFormed_of_complaint? _ rfl⟩

def vaultRunner : Runner Unit :=
  ⟨(Vocabulary.bare.addCommands vaultCommands).addValues vaultValues, .standard⟩

def cellarLine : Event := .list [.atom "Vault", .atom "Open", .atom "cellar"]

def cellarReport : NoMatch where
  family := "Vault"
  input := "Vault Open cellar"
  attempts := [⟨"Open <vault:Address>", .argument "vault" (.unknownAlias "cellar")⟩,
    ⟨"<topic:Help>", .argument "topic" (.expected "Help" "Open")⟩, ⟨"Count", .verb "Count" 0⟩]
  guides := [⟨"Vault <topic:Help>", "Helps with a topic.\n\n  Vault Help"⟩,
    ⟨"Vault Open <vault:Address>", "Opens a vault."⟩,
    ⟨"Vault Count", "Counts what is in the vault."⟩]

theorem noMatch_reports_candidates_cellar :
    (Line.of cellarLine).isForm = false ∧
    vaultRunner.process (.start worldOfGeoff) cellarLine () =
      (.error (.noMatch cellarReport), ()) := by
  have noForm : (Line.of cellarLine).isForm = false := by cbv
  obtain ⟨decided, -⟩ :=
    noMatch_reports_candidates vaultRunner worldOfGeoff none cellarLine noForm ()
  refine ⟨noForm, (decided cellarReport ()).mpr ⟨⟨⟨vaultCommands, rfl, rfl, by cbv⟩, by cbv⟩, ?_⟩⟩
  have attempts : cellarReport.attempts =
      [⟨opening.usage, .argument "vault" (.unknownAlias "cellar")⟩,
        ⟨helping.usage, .argument "topic" (.expected "Help" "Open")⟩,
        ⟨counting.usage, .verb "Count" 0⟩] := by cbv
  have candidates : (vaultRunner.vocabulary.familiesOf cellarLine).flatMap Family.candidates =
      [opening, helping, counting] := rfl
  rw [attempts, candidates]
  exact .cons (by cbv) (.cons (by cbv) (.cons (by cbv) (.nil ())))

end Runner

end LedgerScript
