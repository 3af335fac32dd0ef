import LedgerScript.Proofs.Binding
import LedgerScript.Proofs.Dispatch

/-!
# Ordered choice

A family offers its tokens to the regular operations and then to the fallbacks, each time in the
order of declaration. The two passes are one pass over all candidates, which ends at the first that
accepts. So only the order within each class counts, and an operation declared after all others
is not tried where a regular one accepts.
-/

set_option autoImplicit false

namespace LedgerScript

variable {σ : Type}

namespace Operation

variable {op : Operation σ} {tokens : List Event}

/-- The verb stands in its position, and the parameters take all other tokens. -/
def Takes (op : Operation σ) (scope : Scope σ) (tokens : List Event) (b : Arguments) (s t : σ) :
    Prop :=
  ∃ front words back, tokens = front ++ words ++ back ∧ front.length = op.position ∧
    List.Forall₂ (fun verb token => verbMatches verb token = true) op.verb words ∧
    Arguments.bind scope op.params (front ++ back) false s = (.ok b, t)

/-- The operation takes the tokens, or as a fallback those that its parameters take, from the first
one on. -/
def Accepts (op : Operation σ) (scope : Scope σ) (tokens : List Event) (b : Arguments) (s t : σ) :
    Prop :=
  if op.isFallback then Arguments.bind scope op.params tokens true s = (.ok b, t)
  else op.Takes scope tokens b s t

theorem forall₂_verbMatches_iff {verb : List String} {words : List Event}
    (same : words.length = verb.length) (back : List Event) :
    List.Forall₂ (fun verb token => verbMatches verb token = true) verb words ↔
      (verb.zip (words ++ back)).all (fun x => verbMatches x.1 x.2) = true := by
  have zipped : verb.zip (words ++ back) = verb.zip words := by
    have h : (verb ++ []).zip (words ++ back) = verb.zip words ++ [].zip back :=
      List.zip_append same.symm
    rwa [List.append_nil, List.zip_nil_left, List.append_nil] at h
  rw [zipped, List.forall₂_iff_zip, List.all_eq_true, and_iff_right same.symm]
  exact ⟨fun h x mem => h mem, fun h a b mem => h (a, b) mem⟩

theorem hasVerb_append_iff {front words : List Event} (hfront : front.length = op.position)
    (hwords : words.length = op.verb.length) (back : List Event) :
    op.hasVerb (front ++ words ++ back) = true ↔
      List.Forall₂ (fun verb token => verbMatches verb token = true) op.verb words := by
  have fits : op.position + op.verb.length ≤ (front ++ words ++ back).length := by
    simp only [List.length_append]
    omega
  rw [hasVerb, decide_eq_true fits, Bool.true_and, ← hfront, List.append_assoc,
    List.drop_left, forall₂_verbMatches_iff hwords back]

theorem exists_split_of_hasVerb (h : op.hasVerb tokens = true) :
    ∃ front words back, tokens = front ++ words ++ back ∧ front.length = op.position ∧
      words.length = op.verb.length := by
  rw [hasVerb, Bool.and_eq_true, decide_eq_true_iff] at h
  refine ⟨tokens.take op.position, (tokens.drop op.position).take op.verb.length,
    tokens.drop (op.position + op.verb.length), ?_, ?_, ?_⟩
  · rw [← List.drop_drop, List.append_assoc, List.take_append_drop, List.take_append_drop]
  · rw [List.length_take]
    omega
  · rw [List.length_take, List.length_drop]
    omega

theorem arguments_append {front words back : List Event} (hfront : front.length = op.position)
    (hwords : words.length = op.verb.length) (verb : op.hasVerb (front ++ words ++ back) = true) :
    op.arguments (front ++ words ++ back) = .ok (front ++ back) := by
  rw [arguments, if_pos verb, ← hfront, ← hwords, ← List.length_append, List.drop_left,
    List.append_assoc, List.take_left]

theorem bind_eq_ok_iff {scope : Scope σ} {b : Arguments} {s t : σ} :
    op.bind scope tokens s = (.ok b, t) ↔ op.Takes scope tokens b s t := by
  constructor
  · intro h
    cases verb : op.hasVerb tokens with
    | false =>
      rw [bind_of_not_hasVerb verb] at h
      cases h
    | true =>
      obtain ⟨front, words, back, rfl, hfront, hwords⟩ := exists_split_of_hasVerb verb
      rw [bind_of_arguments (arguments_append hfront hwords verb)] at h
      exact ⟨front, words, back, rfl, hfront, (hasVerb_append_iff hfront hwords back).mp verb, h⟩
  · rintro ⟨front, words, back, rfl, hfront, matched, bound⟩
    have hwords := matched.length_eq.symm
    have verb := (hasVerb_append_iff hfront hwords back).mpr matched
    rw [bind_of_arguments (arguments_append hfront hwords verb)]
    exact bound

theorem offer_eq_ok_iff {scope : Scope σ} {b : Arguments} {s t : σ} :
    op.offer scope tokens s = (.ok b, t) ↔ op.Accepts scope tokens b s t := by
  rw [offer, Accepts]
  split
  · exact Iff.rfl
  · exact bind_eq_ok_iff

theorem not_accepts_iff {scope : Scope σ} {s : σ} :
    (¬ ∃ b t, op.Accepts scope tokens b s t) ↔ ∃ r t, op.offer scope tokens s = (.error r, t) := by
  simp only [← offer_eq_ok_iff]
  rcases op.offer scope tokens s with ⟨r | b, t⟩
  · refine iff_of_true ?_ ⟨r, t, rfl⟩
    rintro ⟨b, u, h⟩
    cases h
  · refine iff_of_false (fun h => h ⟨b, t, rfl⟩) ?_
    rintro ⟨r, u, h⟩
    cases h

end Operation

namespace Family

variable {bindOp : Operation σ → LedgerM σ Refusal Arguments} {scope : Scope σ}
  {tokens : List Event} {s t u : σ}

theorem firstOf_of_accepts {before : List (Operation σ)} {attempts : List Attempt}
    {op : Operation σ} {b : Arguments} (refused : Refused scope tokens before attempts s t)
    (accepted : op.Accepts scope tokens b t u) (after : List (Operation σ)) :
    firstOf (·.offer scope tokens) (before ++ op :: after) s = (.ok (op, b), u) := by
  induction refused with
  | nil s => exact firstOf_cons_of_ok (Operation.offer_eq_ok_iff.mpr accepted)
  | cons refused _ ih =>
    rw [List.cons_append, firstOf_cons_of_error refused]
    exact LedgerM.restate_ok (ih accepted) _

theorem exists_of_firstOf {ops : List (Operation σ)} {op : Operation σ} {b : Arguments}
    (h : firstOf (·.offer scope tokens) ops s = (.ok (op, b), t)) :
    ∃ before after attempts u, ops = before ++ op :: after ∧
      Refused scope tokens before attempts s u ∧ op.Accepts scope tokens b u t := by
  induction ops generalizing s with
  | nil => cases h
  | cons q ops ih =>
    rcases hq : q.offer scope tokens s with ⟨r | c, u⟩
    · rw [firstOf_cons_of_error hq] at h
      obtain ⟨before, after, attempts, v, rfl, refused, accepted⟩ := ih (LedgerM.restate_eq_ok.mp h)
      exact ⟨q :: before, after, _, v, rfl, .cons hq refused, accepted⟩
    · rw [firstOf_cons_of_ok hq] at h
      cases h
      exact ⟨[], ops, [], s, rfl, .nil s, Operation.offer_eq_ok_iff.mp hq⟩

theorem select_eq_ok_iff {f : Family σ} {op : Operation σ} {b : Arguments} :
    f.select scope tokens s = (.ok (op, b), t) ↔
      ∃ before after attempts u, f.candidates = before ++ op :: after ∧
        Refused scope tokens before attempts s u ∧ op.Accepts scope tokens b u t := by
  rw [select_eq_firstOf, LedgerM.restate_eq_ok]
  constructor
  · exact exists_of_firstOf
  · rintro ⟨before, after, attempts, u, split, refused, accepted⟩
    rw [split]
    exact firstOf_of_accepts refused accepted after

/-- The declarations of one family moved to places in the other, where those of each class keep
their order. -/
def Reordered (f g : Family σ) : Prop :=
  ∃ place : Fin f.operations.length ≃ Fin g.operations.length,
    (∀ i, g.operations.get (place i) = f.operations.get i) ∧
    ∀ i j, i < j → (f.operations.get i).isFallback = (f.operations.get j).isFallback →
      place i < place j

namespace Reordered

variable {f g : Family σ}

theorem symm (h : f.Reordered g) : g.Reordered f := by
  obtain ⟨place, same, order⟩ := h
  have back (j : Fin g.operations.length) :
      f.operations.get (place.symm j) = g.operations.get j := by
    rw [← same, place.apply_symm_apply]
  refine ⟨place.symm, back, fun i j hij alike => ?_⟩
  rw [← back i, ← back j] at alike
  rcases lt_trichotomy (place.symm i) (place.symm j) with h | h | h
  · exact h
  · exact absurd (place.symm.injective h) hij.ne
  · have hji := order _ _ h alike.symm
    rw [place.apply_symm_apply, place.apply_symm_apply] at hji
    exact absurd hji hij.asymm

theorem filter_sublist (h : f.Reordered g) (fallback : Bool) :
    (f.operations.filter (·.isFallback == fallback)).Sublist
      (g.operations.filter (·.isFallback == fallback)) := by
  obtain ⟨place, same, order⟩ := h
  have all : ∀ op ∈ f.operations.filter (·.isFallback == fallback), op.isFallback = fallback := by
    intro op mem
    simpa using (List.mem_filter.mp mem).2
  obtain ⟨e, he⟩ := List.sublist_iff_exists_fin_orderEmbedding_get_eq.mp
    (List.filter_sublist (p := fun op : Operation σ => op.isFallback == fallback)
      (l := f.operations))
  -- declarations of one class stand in the order of `f`, so their places are in that of `g`
  have mono : StrictMono fun i => place (e i) := by
    intro i j hij
    refine order _ _ (e.strictMono hij) ?_
    rw [← he, ← he, all _ (List.get_mem _ _), all _ (List.get_mem _ _)]
  have sub : (f.operations.filter (·.isFallback == fallback)).Sublist g.operations :=
    List.sublist_iff_exists_fin_orderEmbedding_get_eq.mpr
      ⟨.ofStrictMono _ mono, fun i => (he i).trans (same (e i)).symm⟩
  simpa only [List.filter_filter, Bool.and_self] using sub.filter (·.isFallback == fallback)

theorem filter_eq (h : f.Reordered g) (fallback : Bool) :
    f.operations.filter (·.isFallback == fallback) =
      g.operations.filter (·.isFallback == fallback) :=
  (h.filter_sublist fallback).antisymm (h.symm.filter_sublist fallback)

theorem candidates_eq (h : f.Reordered g) : f.candidates = g.candidates := by
  have regular : f.regular = g.regular := by
    simpa [Family.regular] using h.filter_eq false
  have fallbacks : f.fallbacks = g.fallbacks := by
    simpa [Family.fallbacks] using h.filter_eq true
  rw [candidates, candidates, regular, fallbacks]

end Reordered

theorem firstOf_append_of_ok {ops : List (Operation σ)} {x : Operation σ × Arguments}
    (h : firstOf bindOp ops s = (.ok x, t)) (more : List (Operation σ)) :
    firstOf bindOp (ops ++ more) s = (.ok x, t) := by
  rw [firstOf_append]
  exact LedgerM.handle_ok h _

theorem select_of_append {f g : Family σ} {more : List (Operation σ)}
    (appended : g.operations = f.operations ++ more)
    (taken : ¬ ∃ attempts t, Refused scope tokens f.regular attempts s t) :
    g.select scope tokens s = f.select scope tokens s := by
  have hg : g.candidates = f.regular ++ (more.filter (!·.isFallback) ++ g.fallbacks) := by
    rw [candidates, regular, appended, List.filter_append, List.append_assoc]
    rfl
  rw [select_eq_firstOf, select_eq_firstOf, hg, candidates]
  rcases h : firstOf (·.offer scope tokens) f.regular s with ⟨attempts | x, t⟩
  · exact absurd ⟨attempts, t, (firstOf_eq_error_iff fun _ _ => rfl).mp h⟩ taken
  · have first (others : List (Operation σ)) := firstOf_append_of_ok h others
    rw [LedgerM.restate_ok (first _), LedgerM.restate_ok (first _)]

end Family

namespace Refused

variable {scope : Scope σ} {tokens : List Event} {ops : List (Operation σ)} {s t : σ}

theorem exists_iff_forall_not_accepts (quiet : ∀ op ∈ ops, op.ReadsWithin Eq scope) :
    (∃ attempts t, Refused scope tokens ops attempts s t) ↔
      ∀ op ∈ ops, ¬ ∃ b t, op.Accepts scope tokens b s t := by
  simp only [Operation.not_accepts_iff]
  constructor
  · rintro ⟨attempts, t, h⟩
    induction h with
    | nil => exact List.forall_mem_nil _
    | @cons op _ r _ s t _ refused _ ih =>
      obtain ⟨hop, hops⟩ := List.forall_mem_cons.mp quiet
      have same := op.within_offer hop tokens s
      rw [refused] at same
      subst same
      exact List.forall_mem_cons.mpr ⟨⟨r, s, refused⟩, ih hops⟩
  · intro h
    induction ops with
    | nil => exact ⟨[], s, .nil s⟩
    | cons op ops ih =>
      obtain ⟨hop, hops⟩ := List.forall_mem_cons.mp quiet
      obtain ⟨⟨r, t, refused⟩, hrest⟩ := List.forall_mem_cons.mp h
      obtain ⟨attempts, u, rest⟩ := ih hops hrest
      have same := op.within_offer hop tokens s
      rw [refused] at same
      subst same
      exact ⟨_, u, .cons refused rest⟩

theorem eq_of_quiet (quiet : ∀ op ∈ ops, op.ReadsWithin Eq scope) {attempts : List Attempt}
    (h : Refused scope tokens ops attempts s t) : t = s :=
  ((iff_alone quiet).mp h).1

end Refused

namespace Family

variable {f : Family σ} {scope : Scope σ} {tokens : List Event} {s : σ}

theorem select_fails_iff :
    (∃ n t, f.select scope tokens s = (.error n, t)) ↔
      ∃ attempts t, Refused scope tokens f.candidates attempts s t := by
  simp only [select_eq_error_iff]
  constructor
  · rintro ⟨_, t, attempts, -, refused⟩
    exact ⟨attempts, t, refused⟩
  · rintro ⟨attempts, t, refused⟩
    exact ⟨_, t, attempts, rfl, refused⟩

theorem exists_takes_of_regular (quiet : ∀ op ∈ f.operations, op.ReadsWithin Eq scope)
    (taken : ∃ op ∈ f.regular, ∃ b t, op.Takes scope tokens b s t) :
    ¬ ∃ attempts t, Refused scope tokens f.regular attempts s t := by
  have hregular : ∀ op ∈ f.regular, op.ReadsWithin Eq scope :=
    fun op mem => quiet op (List.mem_of_mem_filter mem)
  rw [Refused.exists_iff_forall_not_accepts hregular]
  obtain ⟨op, mem, b, t, takes⟩ := taken
  have regular : ¬ op.isFallback = true := by simpa using (List.mem_filter.mp mem).2
  intro h
  refine h op mem ⟨b, t, ?_⟩
  rwa [Operation.Accepts, if_neg regular]

theorem select_eq_ok_iff_alone (quiet : ∀ op ∈ f.candidates, op.ReadsWithin Eq scope)
    {op : Operation σ} {b : Arguments} {t : σ} :
    f.select scope tokens s = (.ok (op, b), t) ↔
      t = s ∧ ∃ before after, f.candidates = before ++ op :: after ∧
        (∀ q ∈ before, ¬ ∃ c u, q.Accepts scope tokens c s u) ∧ op.Accepts scope tokens b s s := by
  have earlier {before after : List (Operation σ)} (split : f.candidates = before ++ op :: after) :
      op.ReadsWithin Eq scope ∧ ∀ q ∈ before, q.ReadsWithin Eq scope := by
    rw [split, List.forall_mem_append, List.forall_mem_cons] at quiet
    exact ⟨quiet.2.1, quiet.1⟩
  rw [select_eq_ok_iff]
  constructor
  · rintro ⟨before, after, attempts, u, split, refused, accepted⟩
    obtain ⟨hop, hbefore⟩ := earlier split
    obtain rfl := refused.eq_of_quiet hbefore
    have same := op.within_offer hop tokens u
    rw [Operation.offer_eq_ok_iff.mpr accepted] at same
    subst same
    exact ⟨rfl, before, after, split,
      (Refused.exists_iff_forall_not_accepts hbefore).mp ⟨attempts, u, refused⟩, accepted⟩
  · rintro ⟨rfl, before, after, split, none, accepted⟩
    obtain ⟨-, hbefore⟩ := earlier split
    obtain ⟨attempts, u, refused⟩ := (Refused.exists_iff_forall_not_accepts hbefore).mpr none
    obtain rfl := refused.eq_of_quiet hbefore
    exact ⟨before, after, attempts, u, split, refused, accepted⟩

/-- Selection is ordered choice. The regular operations come first and then the fallbacks, each in
the order of declaration. The first of them that accepts the tokens is selected, with what it binds
them to, and if none does the family matches nothing. So the order between the two classes makes no
difference, nor do operations that are declared after all others, where a regular one accepts. -/
theorem select_is_ordered_choice (f : Family σ) (scope : Scope σ) (tokens : List Event) (s : σ) :
    (∀ op b t, f.select scope tokens s = (.ok (op, b), t) ↔
      ∃ before after attempts u, f.regular ++ f.fallbacks = before ++ op :: after ∧
        Refused scope tokens before attempts s u ∧ op.Accepts scope tokens b u t) ∧
    ((∃ n t, f.select scope tokens s = (.error n, t)) ↔
      ∃ attempts t, Refused scope tokens (f.regular ++ f.fallbacks) attempts s t) ∧
    (∀ g : Family σ, f.Reordered g → ∀ op b t, g.select scope tokens s = (.ok (op, b), t) ↔
      f.select scope tokens s = (.ok (op, b), t)) ∧
    (∀ (g : Family σ) (more : List (Operation σ)), g.operations = f.operations ++ more →
      ¬ (∃ attempts t, Refused scope tokens f.regular attempts s t) →
        g.select scope tokens s = f.select scope tokens s) ∧
    ((∀ op ∈ f.operations, op.ReadsWithin Eq scope) →
      (∀ op b t, f.select scope tokens s = (.ok (op, b), t) ↔
        t = s ∧ ∃ before after, f.regular ++ f.fallbacks = before ++ op :: after ∧
          (∀ q ∈ before, ¬ ∃ c u, q.Accepts scope tokens c s u) ∧ op.Accepts scope tokens b s s) ∧
      ((∃ n t, f.select scope tokens s = (.error n, t)) ↔
        ∀ op ∈ f.operations, ¬ ∃ b t, op.Accepts scope tokens b s t) ∧
      ∀ (g : Family σ) (more : List (Operation σ)), g.operations = f.operations ++ more →
        (∃ op ∈ f.regular, ∃ b t, op.Takes scope tokens b s t) →
          g.select scope tokens s = f.select scope tokens s) := by
  refine ⟨fun op b t => select_eq_ok_iff, select_fails_iff, fun g same op b t => ?_,
    fun g more appended taken => select_of_append appended taken, fun quiet => ?_⟩
  · rw [select_eq_ok_iff, select_eq_ok_iff, same.candidates_eq]
  · have all : ∀ op ∈ f.candidates, op.ReadsWithin Eq scope :=
      fun op mem => quiet op (f.candidates_perm.mem_iff.mp mem)
    refine ⟨fun op b t => select_eq_ok_iff_alone all, ?_, fun g more appended taken =>
      select_of_append appended (exists_takes_of_regular quiet taken)⟩
    rw [select_fails_iff, Refused.exists_iff_forall_not_accepts all]
    simp only [f.candidates_perm.mem_iff]

open Runner

def turnedVault : Family Unit := ⟨"Vault", [opening, helping], wellFormed_of_complaint? _ rfl⟩

theorem reordered_turnedVault : vaultCommands.Reordered turnedVault := by
  refine ⟨Fin.revPerm, Fin.forall_fin_two.mpr ⟨rfl, rfl⟩, ?_⟩
  refine Fin.forall_fin_two.mpr ⟨Fin.forall_fin_two.mpr ⟨?_, ?_⟩, Fin.forall_fin_two.mpr ⟨?_, ?_⟩⟩
  · exact fun h => absurd h (lt_irrefl _)
  · intro _ alike
    cases alike
  · exact fun h => absurd h (by decide)
  · exact fun h => absurd h (lt_irrefl _)

def vaultScope : Scope Unit := ⟨worldOfGeoff, none, fun _ => return .nothing⟩

theorem select_is_ordered_choice_help :
    vaultCommands.Reordered turnedVault ∧
    turnedVault.select vaultScope [.atom "help"] () =
      (.ok (helping, Fields.ofList [("topic", .string "Help")]), ()) := by
  obtain ⟨selects, -, reordered, -⟩ :=
    select_is_ordered_choice vaultCommands vaultScope [.atom "help"] ()
  have refused : opening.offer vaultScope [.atom "help"] () = (.error (.verb "Open" 0), ()) := by
    cbv
  have accepted : helping.Accepts vaultScope [.atom "help"]
      (Fields.ofList [("topic", .string "Help")]) () () := by
    have fallback : helping.isFallback = true := rfl
    have plain : ∀ p ∈ helping.params, p.Plain := List.forall_mem_singleton.mpr ⟨rfl, rfl, rfl⟩
    have chosen : Shape.chosen? ["Help"] (.atom "help") = some "Help" := by cbv
    rw [Operation.Accepts, if_pos fallback]
    refine Arguments.bind_of_taken plain true (.cons (v := .string "Help") ?_ (.nil _ _))
    rw [Shape.read, chosen]
    rfl
  refine ⟨reordered_turnedVault, (reordered turnedVault reordered_turnedVault _ _ _).mpr ?_⟩
  exact (selects _ _ _).mpr ⟨[opening], [], _, (), rfl, .cons refused (.nil ()), accepted⟩

end Family

end LedgerScript
