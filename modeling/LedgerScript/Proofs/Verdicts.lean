import LedgerScript.Proofs.Runs
import LedgerScript.Proofs.Selection

/-!
# Assertions about the latest command

A run keeps one failure, that of the latest line that came to a command, or none if that line
went well. Assertions of success, failure and revert look at it and at nothing else: one
that is right leaves the world as it is, and one that is wrong ends the run.
-/

set_option autoImplicit false

namespace LedgerScript

variable {σ : Type}

theorem Failure.exists_of_isRevert {f : Failure} (h : f.isRevert = true) :
    ∃ method reason invocation, f = .reverted method reason invocation := by
  cases f with
  | reverted method reason invocation => exact ⟨method, reason, invocation, rfl⟩
  | _ => cases h

/-- What a line can assert about the latest command. -/
inductive Assertion where
  | success
  | failure (reason? : Option String)
  | revert (reason? : Option String)

namespace Assertion

def verb : Assertion → String
  | .success => "Success"
  | .failure _ => "Failure"
  | .revert _ => "Revert"

def reason? : Assertion → Option String
  | .success => none
  | .failure reason? => reason?
  | .revert reason? => reason?

def tokens (a : Assertion) : List Event := .atom a.verb :: a.reason?.toList.map .atom

def event (a : Assertion) : Event := .list (.atom "Assert" :: a.tokens)

/-- The assertion is right, given the failure of the latest command. -/
def Holds : Assertion → Option Failure → Prop
  | .success, last => last = none
  | .failure none, last => ∃ f, last = some f
  | .failure (some reason), last => ∃ f, last = some f ∧ f.reason = reason
  | .revert none, last =>
    ∃ method reason invocation, last = some (.reverted method reason invocation)
  | .revert (some reason), last =>
    ∃ method invocation, last = some (.reverted method reason invocation)

def params : Assertion → List (Param σ)
  | .success => [Standard.errorParam]
  | .failure _ => [Standard.errorParam, Standard.reasonParam "reason"]
  | .revert _ => [Standard.errorParam, Standard.revertedParam, Standard.reasonParam "message"]

def change : Assertion → Change σ
  | .success => Standard.assertSuccess
  | .failure _ => Standard.assertFailure
  | .revert _ => Standard.assertRevert

def arguments (last : Option Failure) : Assertion → Arguments
  | .success => Fields.empty.insert "error" ((last.map (.string ·.reason)).getD .nothing)
  | .failure reason? =>
    (Fields.empty.insert "error" ((last.map (.string ·.reason)).getD .nothing)).insert "reason"
      ((reason?.map .string).getD .nothing)
  | .revert reason? =>
    ((Fields.empty.insert "error" ((last.map (.string ·.reason)).getD .nothing)).insert "reverted"
      (.bool (last.any (·.isRevert)))).insert "message" ((reason?.map .string).getD .nothing)

theorem bind_arguments (a : Assertion) (scope : Scope σ) (s : σ) :
    Arguments.bind scope a.params (a.reason?.toList.map .atom) false s =
      (.ok (a.arguments scope.lastFailure), s) := by
  cases a with
  | success => rfl
  | failure reason? => cases reason? <;> rfl
  | revert reason? => cases reason? <;> rfl

end Assertion

namespace Standard

def assertVerbs : List String :=
  ["Equal", "NotEqual", "True", "False", "LessThan", "GreaterThan", "Success", "Failure", "Revert"]

theorem leadsWith_assertFamily : (assertFamily : Family σ).LeadsWith assertVerbs := rfl

theorem exists_operation (a : Assertion) : ∃ op ∈ (assertFamily : Family σ).regular,
    op.verb = [a.verb] ∧ op.params = a.params ∧ op.handler = .view a.change := by
  have mem (n : Nat) (h : n < 9) : (assertOperations : List (Operation σ)).get ⟨n, h⟩ ∈
      (assertFamily : Family σ).regular := List.getElem_mem h
  cases a with
  | success => exact ⟨_, mem 6 (by decide), rfl, rfl, rfl⟩
  | failure reason? => exact ⟨_, mem 7 (by decide), rfl, rfl, rfl⟩
  | revert reason? => exact ⟨_, mem 8 (by decide), rfl, rfl, rfl⟩

theorem select_assertion (a : Assertion) (scope : Scope σ) (s : σ) :
    ∃ op, op.handler = .view a.change ∧
      assertFamily.select scope a.tokens s = (.ok (op, a.arguments scope.lastFailure), s) := by
  obtain ⟨op, mem, hverb, hparams, hhandler⟩ := exists_operation (σ := σ) a
  have hkey : op.key = [Text.verbKey a.verb] := by rw [Operation.key, hverb, List.map_singleton]
  refine ⟨op, hhandler, Family.select_of_key (fun _ => leadsWith_assertFamily.leadsWithVerb)
    (leadsWith_assertFamily.nodup_keys (by decide)) mem hkey ?_⟩
  rw [hparams]
  exact a.bind_arguments scope s

theorem ensureReason_string (scope : Scope σ) (reason word found : String) :
    ensureReason scope (some (.string reason)) word found =
      if reason = found then .ok scope.world
      else .error (.assertion
        ("expected " ++ word ++ " `" ++ reason ++ "`, got `" ++ found ++ "`")) := by
  rw [ensureReason, ensure, Value.display]
  simp only [beq_iff_eq]

end Standard

namespace Assertion

section Change

variable {scope : Scope σ}

theorem change_failure {f : Failure} (failed : scope.lastFailure = some f) (reason? : Option String)
    (s : σ) :
    (failure reason?).change scope ((failure reason?).arguments scope.lastFailure) s =
      (Standard.ensureReason scope (reason?.map .string) "failure" f.reason, s) := by
  rw [failed]
  cases reason? <;> rfl

theorem change_revert {method reason : String} {invocation : Option Invocation}
    (failed : scope.lastFailure = some (.reverted method reason invocation))
    (reason? : Option String) (s : σ) :
    (revert reason?).change scope ((revert reason?).arguments scope.lastFailure) s =
      (Standard.ensureReason scope (reason?.map .string) "revert" reason, s) := by
  rw [failed]
  cases reason? <;> rfl

theorem change_revert_of_other {f : Failure} (failed : scope.lastFailure = some f)
    (other : f.isRevert = false) (reason? : Option String) (s : σ) :
    (revert reason?).change scope ((revert reason?).arguments scope.lastFailure) s =
      (.error (.assertion ("expected revert, last command failed without revert: " ++ f.reason)),
        s) := by
  rw [failed]
  cases f with
  | reverted method reason invocation => cases other
  | _ => rfl

theorem change_of_holds {a : Assertion} (h : a.Holds scope.lastFailure) (s : σ) :
    a.change scope (a.arguments scope.lastFailure) s = (.ok scope.world, s) := by
  cases a with
  | success =>
    rw [show scope.lastFailure = none from h]
    rfl
  | failure reason? =>
    cases reason? with
    | none =>
      obtain ⟨f, failed⟩ := h
      exact change_failure failed none s
    | some reason =>
      obtain ⟨f, failed, hreason⟩ := h
      rw [change_failure failed, Option.map_some, Standard.ensureReason_string, if_pos hreason.symm]
  | revert reason? =>
    cases reason? with
    | none =>
      obtain ⟨method, reason, invocation, failed⟩ := h
      exact change_revert failed none s
    | some reason =>
      obtain ⟨method, invocation, failed⟩ := h
      rw [change_revert failed, Option.map_some, Standard.ensureReason_string, if_pos rfl]

theorem change_of_not_holds {a : Assertion} (h : ¬ a.Holds scope.lastFailure) (s : σ) :
    ∃ complaint, a.change scope (a.arguments scope.lastFailure) s =
      (.error (.assertion complaint), s) := by
  cases failed : scope.lastFailure with
  | none =>
    cases a with
    | success => exact absurd failed h
    | failure reason? => exact ⟨_, rfl⟩
    | revert reason? => exact ⟨_, rfl⟩
  | some f =>
    rw [← failed]
    -- what is wrong is the reason, unless the failure had to be a revert and is none
    cases a with
    | success =>
      rw [failed]
      exact ⟨_, rfl⟩
    | failure reason? =>
      rw [change_failure failed]
      cases reason? with
      | none => exact absurd ⟨f, failed⟩ h
      | some reason =>
        rw [Option.map_some, Standard.ensureReason_string,
          if_neg fun hreason => h ⟨f, failed, hreason.symm⟩]
        exact ⟨_, rfl⟩
    | revert reason? =>
      cases reverted : f.isRevert with
      | false => exact ⟨_, change_revert_of_other failed reverted reason? s⟩
      | true =>
        obtain ⟨method, found, invocation, rfl⟩ := Failure.exists_of_isRevert reverted
        rw [change_revert failed]
        cases reason? with
        | none => exact absurd ⟨method, found, invocation, failed⟩ h
        | some reason =>
          rw [Option.map_some, Standard.ensureReason_string, if_neg]
          · exact ⟨_, rfl⟩
          · rintro rfl
            exact h ⟨method, invocation, failed⟩

end Change

end Assertion

namespace Runner

/-- A line is an assertion, perhaps in forms whose operands can be read. -/
inductive Asserts (i : Runner σ) (last : Option Failure) (a : Assertion) :
    World → Event → σ → σ → Prop
  | plain {w : World} {e : Event} (line : e.unwrapped = a.event) (s : σ) : Asserts i last a w e s s
  | sender {w : World} {e who : Event} {command : List Event} {address : String} {s t u : σ}
      (line : Line.of e = .sender who command)
      (operand : senderOf (i.vocabulary.scope w last) who s = (.ok address, t))
      (inside : Asserts i last a (w.withTxOptions ⟨some address, w.txOptions.value⟩)
        (.list command) t u) :
      Asserts i last a w e s u
  | value {w : World} {e amount : Event} {command : List Event} {v : Option String} {s t u : σ}
      (line : Line.of e = .value amount command)
      (operand : amountOf (i.vocabulary.scope w last) amount s = (.ok v, t))
      (inside : Asserts i last a (w.withTxOptions ⟨w.txOptions.sender, v⟩) (.list command) t u) :
      Asserts i last a w e s u

/-- What an assertion makes of a line: nothing of it stays if it is right. -/
inductive Judged (a : Assertion) (last : Option Failure) (w : World) :
    Except RunError Outcome → Prop
  | right (h : a.Holds last) : Judged a last w (.ok ⟨w, none, none, .view⟩)
  | wrong (h : ¬ a.Holds last) (complaint : String) :
      Judged a last w (.error (.handler (.assertion complaint)))

theorem runChange_assertion (i : Runner σ) (scope : Scope σ) (a : Assertion) {op : Operation σ}
    (handler : op.handler = .view a.change) (s : σ) :
    ∃ result, i.runChange scope op (a.arguments scope.lastFailure) s = (result, s) ∧
      Judged a scope.lastFailure scope.world result := by
  have hkind : op.kind = .view := by rw [Operation.kind, handler]
  have hexecute : op.execute scope (a.arguments scope.lastFailure) s =
      a.change scope (a.arguments scope.lastFailure) s := by rw [Operation.execute, handler]
  rw [runChange_eq, if_neg (by rw [hkind]; rintro ⟨h, -⟩; cases h), hkind]
  by_cases h : a.Holds scope.lastFailure
  · rw [Assertion.change_of_holds h] at hexecute
    exact ⟨_, LedgerM.handle_ok (LedgerM.map_ok hexecute _) _, .right h⟩
  · obtain ⟨complaint, hchange⟩ := Assertion.change_of_not_holds h s
    rw [hchange] at hexecute
    exact ⟨_, LedgerM.handle_error (LedgerM.map_error hexecute _) _, .wrong h complaint⟩

theorem of_assertion {e : Event} {a : Assertion} (h : e.unwrapped = a.event) :
    Line.of e = .plain "Assert" a.tokens :=
  Line.of_plain h (by cbv) (by cbv)

theorem Judged.leave {a : Assertion} {last : Option Failure} {w : World} {options : TxOptions}
    {result : Except RunError Outcome} (h : Judged a last (w.withTxOptions options) result) :
    Judged a last w (result.map (Outcome.leave w (w.withTxOptions options))) := by
  cases h with
  | right h =>
    have hleave : w.leave (w.withTxOptions options) (w.withTxOptions options) = w := by
      simp [World.leave, World.isUnchanged, World.withTxOptions]
    rw [Except.map, Outcome.leave]
    dsimp only [Option.isSome_none, Bool.false_eq_true, if_false]
    rw [hleave]
    exact .right h
  | wrong h complaint => exact .wrong h complaint

theorem route_of_asserts {i : Runner σ} {last : Option Failure} {a : Assertion} {w : World}
    {e : Event} {s t : σ}
    (kept : i.vocabulary.commandFamily? "Assert" = some Standard.assertFamily)
    (h : i.Asserts last a w e s t) :
    ∃ result, i.route w last e s = (result, t) ∧ Judged a last w result := by
  -- over the forms around the assertion; each leaves a right one with the outer world
  induction h with
  | @plain w e line s =>
    obtain ⟨op, handler, selected⟩ :=
      Standard.select_assertion a (i.vocabulary.scope w last) s
    rw [route_selected (of_assertion line) kept selected]
    exact i.runChange_assertion (i.vocabulary.scope w last) a handler s
  | sender line operand inside ih =>
    obtain ⟨result, hroute, hjudged⟩ := ih
    rw [route_sender line operand, nested, LedgerM.map_apply, hroute]
    exact ⟨_, rfl, hjudged.leave⟩
  | value line operand inside ih =>
    obtain ⟨result, hroute, hjudged⟩ := ih
    rw [route_value line operand, nested, LedgerM.map_apply, hroute]
    exact ⟨_, rfl, hjudged.leave⟩

/-- An assertion about the latest command that a run reaches is judged by the failure in the
report of the latest command line before it. If it is right, the world stays and the run goes
on as if the line were not there; if it is wrong, the run ends at the line. Lines that came to
no command do not count, whether they failed or not. -/
theorem assertion_judged {i : Runner σ}
    (kept : i.vocabulary.commandFamily? "Assert" = some Standard.assertFamily) (a : Assertion)
    {w : World} {text : String} {earlier later : List ScriptLine} {l : ScriptLine} {r : Report}
    {c d u : σ} (read : Script.read text = .ok (earlier ++ l :: later))
    (reached : i.runLines (.start w) earlier c = (.ok r, d))
    (asserts : i.Asserts (commandFailure r.lines) a r.world l.event d u) :
    let last := commandFailure r.lines
    let passed : Report := ⟨r.world, r.lines ++ [⟨l.line, l.source, .view, none, none⟩]⟩
    (a.Holds last ↔ i.runLines (.start w) (earlier ++ [l]) c = (.ok passed, u)) ∧
    (a.Holds last → i.runScript w text c =
      (passed.followedBy <$> i.runLines ⟨r.world, last⟩ later) u) ∧
    (¬ a.Holds last → ∃ complaint, i.runScript w text c =
      (.error ⟨l.line, l.source, .handler (.assertion complaint)⟩, u)) ∧
    ∀ front between, r.lines = front ++ between → (∀ x ∈ between, x.kind ≠ .command) →
      last = commandFailure front := by
  intro last passed
  obtain ⟨result, hroute, hjudged⟩ := route_of_asserts kept asserts
  have hscript := runScript_at read reached
  have hline := runLines_append reached [l]
  rw [Session.afterRun_start] at hline
  have hbetween : ∀ front between, r.lines = front ++ between →
      (∀ x ∈ between, x.kind ≠ .command) → last = commandFailure front := by
    intro front between hlines noCommand
    rw [← commandFailure_append noCommand, ← hlines]
  cases hjudged with
  | right h =>
    have hrun := runLines_cons (s := ⟨r.world, last⟩) hroute
    refine ⟨iff_of_true h ?_, fun _ => ?_, fun hwrong => absurd h hwrong, hbetween⟩
    · rw [hline, LedgerM.map_apply, hrun]
      rfl
    · have hafter : Session.after ⟨r.world, last⟩ ⟨r.world, none, none, .view⟩ =
          ⟨r.world, last⟩ := rfl
      rw [hscript, LedgerM.map_apply, hrun, LedgerM.map_apply, LedgerM.map_apply, hafter]
      cases (i.runLines ⟨r.world, last⟩ later u).1 with
      | error e => rfl
      | ok q => simp only [Except.map, passed, Report.followedBy, ScriptLine.report,
          List.append_assoc, List.cons_append, List.nil_append]
  | wrong h complaint =>
    have hrun := runLines_error (s := ⟨r.world, last⟩) hroute
    refine ⟨iff_of_false h ?_, fun hright => absurd hright h, fun _ => ⟨complaint, ?_⟩, hbetween⟩
    · rw [hline, LedgerM.map_apply, hrun]
      intro hok
      cases hok
    · rw [hscript, LedgerM.map_apply, hrun]
      rfl

def bankScript : String := "From Geoff (Bank call)\nPrint hi\nFrom Geoff (Assert Failure)"

def assertLine : ScriptLine :=
  ⟨3, "From Geoff (Assert Failure)",
    .list [.atom "From", .atom "Geoff", .list [.atom "Assert", .atom "Failure"]]⟩

theorem assertion_judged_in_form :
    Assertion.Holds (.failure none) (some (.unknownAlias "Vault")) ∧
    Script.read bankScript = .ok [callLine, printLine, assertLine] ∧
    bankRunner.runScript worldOfGeoff bankScript () =
      (.ok ⟨worldAfterPrint,
        bankReport.lines ++ [⟨3, assertLine.source, .view, none, none⟩]⟩, ()) := by
  have read : Script.read bankScript = .ok ([callLine, printLine] ++ [assertLine]) := by
    decide +kernel
  have line : Line.of assertLine.event =
      .sender (.atom "Geoff") [.list [.atom "Assert", .atom "Failure"]] := by cbv
  have operand : senderOf (bankRunner.vocabulary.scope worldAfterPrint
      (commandFailure bankReport.lines)) (.atom "Geoff") () = (.ok "0x01", ()) := rfl
  have inside : (Event.list [.list [.atom "Assert", .atom "Failure"]]).unwrapped =
      (Assertion.failure none).event := by cbv
  have holds : Assertion.Holds (.failure none) (commandFailure bankReport.lines) := ⟨_, rfl⟩
  have h := assertion_judged (i := bankRunner) rfl (.failure none)
    read runLines_bankReport (.sender line operand (.plain inside ()))
  exact ⟨holds, read, h.2.1 holds⟩

end Runner

end LedgerScript
