import LedgerScript.Proofs.Runs

/-!
# Runs that halt at failures

A strict runner ends the run at every failure of an operation, a lenient one at the fatal ones
only. On a line, whatever forms it has, the strict one does what the lenient one does and
then ends the run if the outcome has a failure. So both make the same run up to the first line
with a failure, and that line is where the strict one stops.
-/

set_option autoImplicit false

namespace LedgerScript

variable {σ : Type}

/-- The outcome of a line in a run that ends at every failure. -/
def Outcome.halted (o : Outcome) : Except RunError Outcome :=
  match o.failure with
  | none => .ok o
  | some f => .error (.handler f)

theorem Outcome.halted_of_success {o : Outcome} (h : o.failure = none) : o.halted = .ok o := by
  rw [halted, h]

theorem Outcome.halted_of_failure {o : Outcome} {f : Failure} (h : o.failure = some f) :
    o.halted = .error (.handler f) := by
  rw [halted, h]

theorem Outcome.halted_eq_ok {o p : Outcome} : o.halted = .ok p ↔ o = p ∧ p.failure = none := by
  cases h : o.failure with
  | none =>
    rw [halted_of_success h, Except.ok.injEq]
    constructor
    · rintro rfl
      exact ⟨rfl, h⟩
    · exact And.left
  | some f =>
    rw [halted_of_failure h]
    constructor
    · intro hok
      cases hok
    · rintro ⟨rfl, hnone⟩
      rw [h] at hnone
      cases hnone

theorem Outcome.halted_leave (outer inner : World) (o : Outcome) :
    (o.leave outer inner).halted = o.halted.map (leave outer inner) := by
  cases h : o.failure with
  | none =>
    have hleave : (o.leave outer inner).failure = none := h
    rw [halted_of_success h, halted_of_success hleave]
    rfl
  | some f =>
    have hleave : (o.leave outer inner).failure = some f := h
    rw [halted_of_failure h, halted_of_failure hleave]
    rfl

namespace Report

variable {w : World} {l : ScriptLine} {o : Outcome} {lines : List LineReport}

theorem failedLines_cons_of_success (h : o.failure = none) :
    (⟨w, l.report o :: lines⟩ : Report).failedLines = (⟨w, lines⟩ : Report).failedLines :=
  List.filter_cons_of_neg (by rw [ScriptLine.report, h]; exact Bool.false_ne_true)

theorem failedLines_cons_of_failure {f : Failure} (h : o.failure = some f) :
    (⟨w, l.report o :: lines⟩ : Report).failedLines =
      l.report o :: (⟨w, lines⟩ : Report).failedLines :=
  List.filter_cons_of_pos (by rw [ScriptLine.report, h]; rfl)

end Report

namespace Runner

def lenient (i : Runner σ) : Runner σ :=
  { i with config := { i.config with haltOnFailure := false } }

def strict (i : Runner σ) : Runner σ :=
  { i with config := { i.config with haltOnFailure := true } }

/-- The action, but that an outcome with a failure is an error. -/
def halting (x : LedgerM σ RunError Outcome) : LedgerM σ RunError Outcome :=
  x >>= fun o => .ofExcept o.halted

theorem halting_throw (e : RunError) :
    halting (throw e : LedgerM σ RunError Outcome) = throw e := rfl

theorem halting_apply (x : LedgerM σ RunError Outcome) (s : σ) :
    halting x s = ((x s).1.bind Outcome.halted, (x s).2) := by
  rw [halting, LedgerM.bind_apply]
  rcases x s with ⟨e | o, t⟩ <;> rfl

theorem halting_bind {α : Type} (x : LedgerM σ RunError α) (f : α → LedgerM σ RunError Outcome) :
    (x >>= fun a => halting (f a)) = halting (x >>= f) :=
  (bind_assoc x f _).symm

theorem recovered_strict (i : Runner σ) (w : World) (f : Failure) (kind : Kind) :
    i.strict.recovered w f kind = (i.lenient.recovered w f kind).bind Outcome.halted := by
  rw [recovered, recovered, strict, lenient]
  cases f.isFatal <;> rfl

theorem recovering_strict {α : Type} (i : Runner σ) (w : World) (kind : Kind)
    (x : LedgerM σ Failure α) {done : α → Outcome} (hdone : ∀ a, (done a).failure = none) :
    (done <$> x).handle (fun e => .ofExcept (i.strict.recovered w e kind)) =
      halting ((done <$> x).handle (fun e => .ofExcept (i.lenient.recovered w e kind))) := by
  funext s
  rw [halting_apply]
  rcases hx : x s with ⟨e | a, t⟩
  · rw [recovering_of_error hx, recovering_of_error hx, recovered_strict]
  · rw [LedgerM.handle_ok (LedgerM.map_ok hx done), LedgerM.handle_ok (LedgerM.map_ok hx done)]
    exact congrArg (·, t) (Outcome.halted_of_success (hdone a)).symm

theorem runChange_strict (i : Runner σ) (scope : Scope σ) (op : Operation σ) (b : Arguments) :
    i.strict.runChange scope op b = halting (i.lenient.runChange scope op b) := by
  rw [runChange_eq, runChange_eq]
  split
  · rfl
  · exact i.recovering_strict scope.world op.kind _ (fun _ => rfl)

theorem runFetch_strict (i : Runner σ) (scope : Scope σ) (op : Operation σ) (b : Arguments)
    (e : Event) : i.strict.runFetch scope op b e = halting (i.lenient.runFetch scope op b e) :=
  i.recovering_strict scope.world .fetcher (op.fetch scope b) (fun _ => rfl)

theorem runValueLine_strict (i : Runner σ) (scope : Scope σ) (e : Event) (name : String)
    (rest : List Event) (unmatched : Option NoMatch) :
    i.strict.runValueLine scope e name rest unmatched =
      halting (i.lenient.runValueLine scope e name rest unmatched) := by
  cases named : i.vocabulary.valueFamily? name with
  | none =>
    rw [runValueLine_unnamed (i := i.strict) named, runValueLine_unnamed (i := i.lenient) named,
      halting_throw]
  | some family =>
    rw [runValueLine_named (i := i.strict) named, runValueLine_named (i := i.lenient) named,
      ← halting_bind]
    simp only [runFetch_strict]

theorem runPlain_strict (i : Runner σ) (scope : Scope σ) (e : Event) (name : String)
    (rest : List Event) :
    i.strict.runPlain scope e name rest = halting (i.lenient.runPlain scope e name rest) := by
  cases named : i.vocabulary.commandFamily? name with
  | none =>
    rw [runPlain_unnamed (i := i.strict) named, runPlain_unnamed (i := i.lenient) named,
      runValueLine_strict]
  | some family =>
    funext s
    rw [halting_apply]
    rcases hselect : family.select scope rest s with ⟨n | ⟨op, b⟩, t⟩
    · rw [runPlain_refused (i := i.strict) named hselect,
        runPlain_refused (i := i.lenient) named hselect, runValueLine_strict, halting_apply]
    · rw [runPlain_selected (i := i.strict) named hselect,
        runPlain_selected (i := i.lenient) named hselect, runChange_strict, halting_apply]

theorem nested_strict {i : Runner σ} {last : Option Failure} {command : List Event}
    (h : ∀ w, i.strict.route w last (.list command) =
      halting (i.lenient.route w last (.list command)))
    (w : World) (options : TxOptions) :
    i.strict.nested w last options command = halting (i.lenient.nested w last options command) := by
  funext s
  rw [nested, nested, LedgerM.map_apply, h, halting_apply, halting_apply, LedgerM.map_apply]
  rcases i.lenient.route (w.withTxOptions options) last (.list command) s with ⟨e | o, t⟩
  · rfl
  · exact congrArg (·, t) (Outcome.halted_leave w (w.withTxOptions options) o).symm

/-- A strict runner makes of a line what a lenient one does, but that a failure ends the run. -/
theorem route_strict (i : Runner σ) (last : Option Failure) (e : Event) :
    ∀ w, i.strict.route w last e = halting (i.lenient.route w last e) := by
  induction e using Line.form_induction with
  | step e ih =>
    intro w
    rw [route_eq, route_eq]
    cases line : Line.of e with
    | plain name rest => exact i.runPlain_strict _ _ name rest
    | sender who command =>
      have inside := nested_strict (ih command (by rw [line]; rfl))
      rw [runLine, runLine, ← halting_bind]
      simp only [inside]
      rfl
    | value amount command =>
      have inside := nested_strict (ih command (by rw [line]; rfl))
      rw [runLine, runLine, ← halting_bind]
      simp only [inside]
      rfl
    | incomplete guide => rfl
    | headless => rfl

section Line

variable {i : Runner σ} {s : Session} {e : Event} {o : Outcome} {c d : σ}

theorem process_strict_eq_ok : i.strict.process s e c = (.ok o, d) ↔
    i.lenient.process s e c = (.ok o, d) ∧ o.failure = none := by
  rw [process, process, route_strict, halting_apply]
  rcases i.lenient.route s.world s.lastFailure e c with ⟨f | p, t⟩
  · constructor
    · intro h
      cases h
    · rintro ⟨h, -⟩
      cases h
  · constructor
    · intro h
      obtain ⟨hhalted, rfl⟩ := Prod.mk.inj h
      obtain ⟨rfl, hnone⟩ := Outcome.halted_eq_ok.mp hhalted
      exact ⟨rfl, hnone⟩
    · rintro ⟨h, hnone⟩
      cases h
      exact congrArg (·, d) (Outcome.halted_eq_ok.mpr ⟨rfl, hnone⟩)

theorem process_strict_of_failure {f : Failure} (h : i.lenient.process s e c = (.ok o, d))
    (hf : o.failure = some f) : i.strict.process s e c = (.error (.handler f), d) := by
  rw [process] at h
  rw [process, route_strict, halting_apply, h]
  exact congrArg (·, d) (Outcome.halted_of_failure hf)

end Line

section Lines

variable {i : Runner σ} {lines : List ScriptLine} {s : Session} {r : Report} {c d : σ}

theorem runLines_strict_eq_ok : i.strict.runLines s lines c = (.ok r, d) ↔
    i.lenient.runLines s lines c = (.ok r, d) ∧ r.failedLines = [] := by
  induction lines generalizing s r c with
  | nil =>
    constructor
    · intro h
      cases h
      exact ⟨rfl, rfl⟩
    · exact And.left
  | cons l rest ih =>
    rw [runLines_cons_eq_ok, runLines_cons_eq_ok]
    constructor
    · rintro ⟨o, u, q, hline, hrest, rfl⟩
      obtain ⟨hline, hsuccess⟩ := process_strict_eq_ok.mp hline
      obtain ⟨hrest, hnone⟩ := ih.mp hrest
      exact ⟨⟨o, u, q, hline, hrest, rfl⟩, by rw [Report.failedLines_cons_of_success hsuccess, hnone]⟩
    · rintro ⟨⟨o, u, q, hline, hrest, rfl⟩, hnone⟩
      cases hf : o.failure with
      | none =>
        rw [Report.failedLines_cons_of_success hf] at hnone
        exact ⟨o, u, q, process_strict_eq_ok.mpr ⟨hline, hf⟩, ih.mpr ⟨hrest, hnone⟩, rfl⟩
      | some f =>
        rw [Report.failedLines_cons_of_failure hf] at hnone
        cases hnone

theorem runLines_strict_of_failed {x : LineReport} {others : List LineReport}
    (h : i.lenient.runLines s lines c = (.ok r, d)) (failed : r.failedLines = x :: others) :
    ∃ earlier l later front back after f u, lines = earlier ++ l :: later ∧
      r.lines = front ++ x :: back ∧ (∀ y ∈ front, y.failure = none) ∧ x.failure = some f ∧
      i.lenient.runLines s (earlier ++ [l]) c = (.ok ⟨after, front ++ [x]⟩, u) ∧
      i.strict.runLines s lines c = (.error ⟨x.line, x.source, .handler f⟩, u) := by
  induction lines generalizing s r c with
  | nil =>
    cases h
    cases failed
  | cons l rest ih =>
    obtain ⟨o, u, q, hline, hrest, rfl⟩ := runLines_cons_eq_ok.mp h
    cases hf : o.failure with
    | none =>
      rw [Report.failedLines_cons_of_success hf] at failed
      obtain ⟨earlier, k, later, front, back, after, f, v, rfl, hlines, hfront, hx, hrun, hstop⟩ :=
        ih hrest failed
      have hstrict := process_strict_eq_ok.mpr ⟨hline, hf⟩
      refine ⟨l :: earlier, k, later, l.report o :: front, back, after, f, v, rfl,
        congrArg (l.report o :: ·) hlines, List.forall_mem_cons.mpr ⟨hf, hfront⟩, hx, ?_, ?_⟩
      · exact runLines_cons_eq_ok.mpr ⟨o, u, ⟨after, front ++ [x]⟩, hline, hrun, rfl⟩
      · rw [runLines_cons hstrict]
        exact LedgerM.map_error hstop _
    | some f =>
      rw [Report.failedLines_cons_of_failure hf] at failed
      obtain ⟨rfl, -⟩ := List.cons.inj failed
      have hstop := runLines_error (process_strict_of_failure hline hf) rest
      exact ⟨[], l, rest, [], q.lines, o.world, f, u, rfl, rfl, List.forall_mem_nil _, hf,
        runLines_cons_eq_ok.mpr ⟨o, u, ⟨o.world, []⟩, hline, rfl, rfl⟩, hstop⟩

end Lines

/-- Strict and lenient runs of a script agree. If no line of the lenient run failed, the strict
run gives the same report on the same ledger, and it gives no other report. If some line
failed, the strict run ends at the first of these with its failure, having run the lines up to it
as the lenient run did, and no further one. -/
theorem strict_run_agrees (i : Runner σ) (w : World) (text : String) (c : σ) :
    (∀ r d, i.lenient.runScript w text c = (.ok r, d) → r.failedLines = [] →
      i.strict.runScript w text c = (.ok r, d)) ∧
    (∀ r d x others, i.lenient.runScript w text c = (.ok r, d) → r.failedLines = x :: others →
      ∃ earlier l later front back after f u,
        Script.read text = .ok (earlier ++ l :: later) ∧
        r.lines = front ++ x :: back ∧ (∀ y ∈ front, y.failure = none) ∧ x.failure = some f ∧
        i.lenient.runLines (.start w) (earlier ++ [l]) c = (.ok ⟨after, front ++ [x]⟩, u) ∧
        i.strict.runScript w text c = (.error ⟨x.line, x.source, .handler f⟩, u)) ∧
    (∀ r d, i.strict.runScript w text c = (.ok r, d) →
      i.lenient.runScript w text c = (.ok r, d)) := by
  cases read : Script.read text with
  | error e =>
    have hlenient := congrFun (i.lenient.runScript_of_unread w read) c
    have hstrict := congrFun (i.strict.runScript_of_unread w read) c
    rw [hlenient, hstrict]
    refine ⟨?_, ?_, ?_⟩
    · intro r d h
      cases h
    · intro r d x others h
      cases h
    · intro r d h
      cases h
  | ok lines =>
    rw [i.lenient.runScript_of_read w read, i.strict.runScript_of_read w read]
    refine ⟨?_, ?_, ?_⟩
    · intro r d h hnone
      exact runLines_strict_eq_ok.mpr ⟨h, hnone⟩
    · intro r d x others h failed
      obtain ⟨earlier, l, later, front, back, after, f, u, rfl, hstop⟩ :=
        runLines_strict_of_failed h failed
      exact ⟨earlier, l, later, front, back, after, f, u, rfl, hstop⟩
    · intro r d h
      exact (runLines_strict_eq_ok.mp h).1

def failingScript : String := "From Geoff (Bank call)\nPrint hi"

theorem strict_run_agrees_on_call :
    bankRunner.lenient.runScript worldOfGeoff failingScript () = (.ok bankReport, ()) ∧
    bankRunner.strict.runScript worldOfGeoff failingScript () =
      (.error ⟨1, callLine.source, .handler (.unknownAlias "Vault")⟩, ()) := by
  have read : Script.read failingScript = .ok [callLine, printLine] := by decide +kernel
  have lenient_bankRunner : bankRunner.lenient = bankRunner := rfl
  have hlenient : bankRunner.lenient.runScript worldOfGeoff failingScript () =
      (.ok bankReport, ()) := by
    rw [lenient_bankRunner, runScript_of_read _ _ read]
    exact runLines_bankReport
  obtain ⟨-, hstops, -⟩ := strict_run_agrees bankRunner worldOfGeoff failingScript ()
  obtain ⟨_, _, _, _, _, _, f, u, -, -, -, hf, -, hstrict⟩ :=
    hstops bankReport () _ [] hlenient rfl
  cases hf
  exact ⟨hlenient, hstrict⟩

end Runner

end LedgerScript
