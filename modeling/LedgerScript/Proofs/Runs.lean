import LedgerScript.Proofs.Recovery
import LedgerScript.Standard.Vocabulary

/-!
# Runs of scripts

A run over some lines leaves a session: the world, and the failure of the latest command. What it
leaves is read off its report, and a run over more lines goes on from there; the first line
that fails is the last one that runs.
-/

set_option autoImplicit false

namespace LedgerScript

variable {σ : Type}

/-- The failure of the latest command in some reports, if there is one and it failed. -/
def commandFailure (lines : List LineReport) : Option Failure :=
  (lines.filter (·.kind = .command)).getLast?.bind LineReport.failure

theorem commandFailure_append {between : List LineReport}
    (noCommand : ∀ x ∈ between, x.kind ≠ .command) (front : List LineReport) :
    commandFailure (front ++ between) = commandFailure front := by
  have hnil : between.filter (·.kind = .command) = [] := by
    rw [List.filter_eq_nil_iff]
    intro x hx
    rw [decide_eq_true_iff]
    exact noCommand x hx
  rw [commandFailure, List.filter_append, hnil, List.append_nil]
  rfl

def Report.followedBy (first second : Report) : Report :=
  ⟨second.world, first.lines ++ second.lines⟩

def ScriptLine.report (l : ScriptLine) (o : Outcome) : LineReport :=
  ⟨l.line, l.source, o.kind, o.value, o.failure⟩

namespace Session

/-- What a run that started in `s` leaves to the lines after it. -/
def afterRun (s : Session) (r : Report) : Session :=
  ⟨r.world, (r.lines.filter (·.kind = .command)).getLast?.elim s.lastFailure LineReport.failure⟩

theorem afterRun_start (w : World) (r : Report) :
    (start w).afterRun r = ⟨r.world, commandFailure r.lines⟩ := by
  rw [afterRun, commandFailure]
  cases (r.lines.filter (·.kind = .command)).getLast? <;> rfl

theorem afterRun_cons (s : Session) (l : ScriptLine) (o : Outcome) (r : Report) :
    s.afterRun ⟨r.world, l.report o :: r.lines⟩ = (s.after o).afterRun r := by
  rw [afterRun, afterRun, after]
  dsimp only
  rw [List.filter_cons]
  by_cases hkind : o.kind = .command
  · rw [if_pos (by rw [ScriptLine.report]; exact decide_eq_true hkind), if_pos hkind,
      List.getLast?_cons]
    cases (r.lines.filter (·.kind = .command)).getLast? <;> rfl
  · rw [if_neg (by rw [ScriptLine.report]; simp [hkind]), if_neg hkind]

end Session

namespace Runner

theorem runLines_cons {i : Runner σ} {s : Session} {l : ScriptLine} {o : Outcome} {c d : σ}
    (h : i.process s l.event c = (.ok o, d)) (rest : List ScriptLine) :
    i.runLines s (l :: rest) c =
      ((fun r => (⟨r.world, l.report o :: r.lines⟩ : Report)) <$>
        i.runLines (s.after o) rest) d := by
  rw [runLines, LedgerM.bind_ok (LedgerM.restate_ok h _), map_eq_pure_bind]
  rfl

theorem runLines_cons_eq_ok {i : Runner σ} {s : Session} {l : ScriptLine} {rest : List ScriptLine}
    {r : Report} {c e : σ} :
    i.runLines s (l :: rest) c = (.ok r, e) ↔
      ∃ o d q, i.process s l.event c = (.ok o, d) ∧ i.runLines (s.after o) rest d = (.ok q, e) ∧
        r = ⟨q.world, l.report o :: q.lines⟩ := by
  constructor
  · intro h
    obtain ⟨o, d, hrestated, -⟩ := LedgerM.bind_eq_ok.mp h
    have hline := LedgerM.restate_eq_ok.mp hrestated
    rw [runLines_cons hline] at h
    obtain ⟨q, hrun, rfl⟩ := LedgerM.map_eq_ok.mp h
    exact ⟨o, d, q, hline, hrun, rfl⟩
  · rintro ⟨o, d, q, hline, hrun, rfl⟩
    rw [runLines_cons hline]
    exact LedgerM.map_ok hrun _

theorem runLines_error {i : Runner σ} {s : Session} {l : ScriptLine} {e : RunError} {c d : σ}
    (h : i.process s l.event c = (.error e, d)) (rest : List ScriptLine) :
    i.runLines s (l :: rest) c = (.error ⟨l.line, l.source, e⟩, d) := by
  rw [runLines, LedgerM.bind_error (LedgerM.restate_error h _)]

/-- A run over more lines goes on from what the run over the first ones leaves. -/
theorem runLines_append {i : Runner σ} {first : List ScriptLine} {s : Session} {r : Report}
    {c d : σ} (h : i.runLines s first c = (.ok r, d)) (second : List ScriptLine) :
    i.runLines s (first ++ second) c =
      (r.followedBy <$> i.runLines (s.afterRun r) second) d := by
  induction first generalizing s r c with
  | nil =>
    cases h
    exact (congrFun (id_map (i.runLines s second)) _).symm
  | cons l rest ih =>
    obtain ⟨o, u, q, hline, hrun, rfl⟩ := runLines_cons_eq_ok.mp h
    rw [List.cons_append, runLines_cons hline, LedgerM.map_apply, ih hrun, LedgerM.map_apply,
      LedgerM.map_apply, Session.afterRun_cons]
    cases (i.runLines ((s.after o).afterRun q) second d).1 <;> rfl

theorem runLines_append_of_error {i : Runner σ} {first : List ScriptLine} {s : Session}
    {e : ScriptError} {c d : σ} (h : i.runLines s first c = (.error e, d))
    (second : List ScriptLine) : i.runLines s (first ++ second) c = (.error e, d) := by
  induction first generalizing s c with
  | nil => cases h
  | cons l rest ih =>
    rcases hline : i.process s l.event c with ⟨f | o, u⟩
    · rw [runLines_error hline] at h
      rw [List.cons_append, runLines_error hline]
      exact h
    · rw [runLines_cons hline, LedgerM.map_apply] at h
      rw [List.cons_append, runLines_cons hline, LedgerM.map_apply]
      rcases hrest : i.runLines (s.after o) rest u with ⟨f | q, v⟩
      · rw [hrest] at h
        cases h
        rw [ih hrest]
        rfl
      · rw [hrest] at h
        cases h

theorem runLines_append_eq_ok {i : Runner σ} {first second : List ScriptLine} {s : Session}
    {r : Report} {c e : σ} :
    i.runLines s (first ++ second) c = (.ok r, e) ↔
      ∃ q d p, i.runLines s first c = (.ok q, d) ∧
        i.runLines (s.afterRun q) second d = (.ok p, e) ∧ r = q.followedBy p := by
  constructor
  · intro h
    rcases hfirst : i.runLines s first c with ⟨f | q, d⟩
    · rw [runLines_append_of_error hfirst] at h
      cases h
    · rw [runLines_append hfirst] at h
      obtain ⟨p, hsecond, rfl⟩ := LedgerM.map_eq_ok.mp h
      exact ⟨q, d, p, rfl, hsecond, rfl⟩
  · rintro ⟨q, d, p, hfirst, hsecond, rfl⟩
    rw [runLines_append hfirst]
    exact LedgerM.map_ok hsecond _

theorem runScript_of_read (i : Runner σ) (w : World) {text : String} {lines : List ScriptLine}
    (read : Script.read text = .ok lines) : i.runScript w text = i.runLines (.start w) lines := by
  rw [runScript, read]

theorem runScript_of_unread (i : Runner σ) (w : World) {text : String} {e : SyntaxError}
    (read : Script.read text = .error e) :
    i.runScript w text =
      throw ⟨e.place.line, Script.sourceAt text e.place.line, .malformed e⟩ := by
  rw [runScript, read]

theorem runScript_at {i : Runner σ} {w : World} {text : String} {earlier rest : List ScriptLine}
    {r : Report} {c d : σ} (read : Script.read text = .ok (earlier ++ rest))
    (reached : i.runLines (.start w) earlier c = (.ok r, d)) :
    i.runScript w text c =
      (r.followedBy <$> i.runLines ⟨r.world, commandFailure r.lines⟩ rest) d := by
  rw [runScript, read, ← Session.afterRun_start w]
  exact runLines_append reached rest

deriving instance DecidableEq for ScriptLine

def bankRunner : Runner Unit := ⟨Standard.vocabulary.addCommands refusingFamily, .standard⟩

def callLine : ScriptLine :=
  ⟨1, "From Geoff (Bank call)",
    .list [.atom "From", .atom "Geoff", .list [.atom "Bank", .atom "call"]]⟩

def printLine : ScriptLine := ⟨2, "Print hi", .list [.atom "Print", .atom "hi"]⟩

def worldAfterPrint : World := worldOfGeoff.traced "hi" none

def bankReport : Report :=
  ⟨worldAfterPrint, [callLine.report ⟨worldOfGeoff, none, some (.unknownAlias "Vault"), .command⟩,
    printLine.report ⟨worldAfterPrint, none, none, .view⟩]⟩

theorem runLines_bankReport :
    bankRunner.runLines (.start worldOfGeoff) [callLine, printLine] () = (.ok bankReport, ()) := by
  let inner := worldOfGeoff.withTxOptions ⟨some "0x01", worldOfGeoff.txOptions.value⟩
  have bank : Line.of (.list [.list [.atom "Bank", .atom "call"]]) =
      .plain "Bank" [.atom "call"] := by cbv
  have selected : refusingFamily.select (bankRunner.vocabulary.scope inner none) [.atom "call"] () =
      (.ok (refusing, .empty), ()) := by cbv
  have inside : HandlerFails bankRunner none inner
      (.list [.list [.atom "Bank", .atom "call"]]) () (.unknownAlias "Vault") .command () :=
    .change bank rfl selected (fun _ => by decide) rfl
  have line : Line.of callLine.event =
      .sender (.atom "Geoff") [.list [.atom "Bank", .atom "call"]] := by cbv
  have operand : senderOf (bankRunner.vocabulary.scope worldOfGeoff none) (.atom "Geoff") () =
      (.ok "0x01", ()) := rfl
  have called : bankRunner.process (.start worldOfGeoff) callLine.event () =
      (.ok ⟨worldOfGeoff, none, some (.unknownAlias "Vault"), .command⟩, ()) :=
    route_of_handlerFails (.sender line operand inside)
  have printed : bankRunner.process ⟨worldOfGeoff, some (.unknownAlias "Vault")⟩
      printLine.event () = (.ok ⟨worldAfterPrint, none, none, .view⟩, ()) := by cbv
  have rest := (runLines_cons printed []).trans (LedgerM.map_ok rfl _)
  rw [runLines_cons called]
  exact LedgerM.map_ok rest _

end Runner

end LedgerScript
