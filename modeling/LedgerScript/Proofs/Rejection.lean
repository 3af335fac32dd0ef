import LedgerScript.Language.Transaction
import LedgerScript.Proofs.Calls
import LedgerScript.Proofs.RoundTrip
import LedgerScript.Proofs.Verdicts

/-!
# Calls that a program rejects

When the program of a contract returns an error, the ledger in memory is as it was, and the call
fails. For a revert it fails as one, with the reason that the program gave, whichever kind of call
it was. A line that asserts the printed reason is then right, and one with any other
reason is wrong.
-/

set_option autoImplicit false

namespace LedgerScript

variable {σ : Type}

/-- A ledger call of an operation. -/
inductive Order where
  | deploy (kind : String) (args : List Value)
  | read (handle : Handle) (method : String) (args : List Value)
  | send (handle : Handle) (method : String) (args : List Value)

namespace Order

def method : Order → String
  | .deploy _ _ => "constructor"
  | .read _ method _ => method
  | .send _ method _ => method

def place (w : World) : Order → LedgerM LocalLedger Failure Unit
  | .deploy kind args => (fun _ => ()) <$> Transaction.deploy w kind args
  | .read handle method args => (fun _ => ()) <$> Transaction.read handle method args
  | .send handle method args => (fun _ => ()) <$> Transaction.send w handle method args

/-- Only a send that is rejected leaves a record. -/
def record? (e : LedgerError) : Order → Option Invocation
  | .send _ method _ => some (.rejected method e)
  | _ => none

def failure (o : Order) : LedgerError → Failure
  | .reverted reason => .reverted o.method reason (o.record? (.reverted reason))
  | e => .ledger e

/-- The program that the call comes to returns the error. -/
inductive Rejected (l : LocalLedger) (options : TxOptions) (e : LedgerError) : Order → Prop
  | construct {kind : String} {args : List Value} {program : Program}
      (known : l.programs.get? kind = some program)
      (failed : program.construct (l.callOf options l.nextAddress) (Value.toWires args) =
        .error e) :
      Rejected l options e (.deploy kind args)
  | read {handle : Handle} {method : String} {args : List Value} {contract : Contract}
      {program : Program} (found : l.chain.contract? handle.address = some contract)
      (known : l.programs.get? contract.kind = some program)
      (failed : program.read contract.state method (Value.toWires args) = .error e) :
      Rejected l options e (.read handle method args)
  | send {handle : Handle} {method : String} {args : List Value} {contract : Contract}
      {program : Program} {state : Fields Wire}
      (found : l.chain.contract? handle.address = some contract)
      (known : l.programs.get? contract.kind = some program)
      (failed : program.send (l.callOf options handle.address) method (Value.toWires args)
        contract.state = (.error e, state)) :
      Rejected l options e (.send handle method args)

end Order

namespace LocalLedger

variable {l : LocalLedger} {kind method : String} {args : List Wire} {options : TxOptions}
  {handle : Handle} {contract : Contract} {program : Program} {e : LedgerError}

theorem programOf_of_known (known : l.programs.get? kind = some program) :
    l.programOf kind = .ok program := by
  rw [programOf, known]

theorem contractAt_of_found (found : l.chain.contract? handle.address = some contract) :
    l.contractAt handle.address = .ok contract := by
  rw [contractAt, found]

theorem deploy_of_error (known : l.programs.get? kind = some program)
    (failed : program.construct (l.callOf options l.nextAddress) args = .error e) :
    deploy kind args options l = (.error e, l) := by
  rw [deploy, LedgerM.get_bind, LedgerM.lift_bind_ok (programOf_of_known known)]
  exact LedgerM.lift_bind_error failed _ l

theorem read_of_error (found : l.chain.contract? handle.address = some contract)
    (known : l.programs.get? contract.kind = some program)
    (failed : program.read contract.state method args = .error e) :
    read handle method args l = (.error e, l) := by
  rw [read, LedgerM.get_bind, LedgerM.lift_bind_ok (contractAt_of_found found),
    LedgerM.lift_bind_ok (programOf_of_known known), failed]
  rfl

theorem send_of_error {state : Fields Wire}
    (found : l.chain.contract? handle.address = some contract)
    (known : l.programs.get? contract.kind = some program)
    (failed : program.send (l.callOf options handle.address) method args contract.state =
      (.error e, state)) :
    send handle method args options l = (.ok (.rejected method e), l) := by
  rw [send, LedgerM.get_bind, LedgerM.lift_bind_ok (contractAt_of_found found),
    LedgerM.lift_bind_ok (programOf_of_known known)]
  dsimp only [ExceptT.run]
  rw [show program.send ⟨l.senderOf options, options.value, handle.address⟩ method args
    contract.state = (.error e, state) from failed]
  rfl

end LocalLedger

namespace Order

theorem failure_of_other {e : LedgerError} (o : Order) (h : ∀ reason, e ≠ .reverted reason) :
    o.failure e = .ledger e := by
  cases e with
  | reverted reason => exact absurd rfl (h reason)
  | _ => rfl

theorem failure_deploy (kind : String) (args : List Value) (e : LedgerError) :
    (deploy kind args).failure e = Transaction.rejection "constructor" e := by
  cases e <;> rfl

theorem failure_read (handle : Handle) (method : String) (args : List Value) (e : LedgerError) :
    (read handle method args).failure e = Transaction.rejection method e := by
  cases e <;> rfl

theorem accepted_rejected (w : World) (message method : String) (handle : Handle)
    (args : List Value) (e : LedgerError) :
    Transaction.accepted w message method (.rejected method e) =
      .error ((send handle method args).failure e) := by
  cases e <;> rfl

theorem options_of_sender {w : World} {sender : String} (sent : w.sender? = some sender) :
    Transaction.options w = .ok ⟨some sender, w.txOptions.value⟩ := by
  rw [Transaction.options, World.sender, sent]
  rfl

/-- A rejected call fails, and the ledger is as it was. -/
theorem place_of_rejected {w : World} {sender : String} {l : LocalLedger} {e : LedgerError}
    {o : Order} (sent : w.sender? = some sender) (wet : w.settings.dryRun = false)
    (rejected : o.Rejected l ⟨some sender, w.txOptions.value⟩ e) :
    o.place w l = (.error (o.failure e), l) := by
  have hoptions := options_of_sender sent
  cases rejected with
  | construct known failed =>
    have hdeploy := LedgerM.restate_error (LocalLedger.deploy_of_error known failed)
      (Transaction.rejection "constructor")
    rw [failure_deploy]
    refine LedgerM.map_error ?_ _
    rw [Transaction.deploy, LedgerM.lift_bind_ok hoptions]
    exact LedgerM.bind_error hdeploy _
  | @read handle method args contract program found known failed =>
    have hread := LedgerM.restate_error (LocalLedger.read_of_error found known failed)
      (Transaction.rejection method)
    rw [failure_read]
    refine LedgerM.map_error ?_ _
    exact LedgerM.bind_error hread _
  | @send handle method args contract program state found known failed =>
    have hsend := LedgerM.restate_ok (LocalLedger.send_of_error found known failed)
      Failure.ledger
    refine LedgerM.map_error ?_ _
    rw [Transaction.send, LedgerM.lift_bind_ok hoptions, wet, if_neg Bool.false_ne_true]
    refine (LedgerM.bind_ok hsend _).trans ?_
    rw [accepted_rejected w _ method handle args]
    rfl

end Order

def revertLine (reason : String) : String := "Assert Revert " ++ (Event.atom reason).text

theorem revertLine_eq (reason : String) : revertLine reason =
    String.ofList (Event.charsAll [.atom "Assert", .atom "Revert", .atom reason]) := by
  have hassert : Event.chars (.atom "Assert") = "Assert".toList := by cbv
  have hrevert : Event.chars (.atom "Revert") = "Revert".toList := by cbv
  have hfront : Event.charsAll [.atom "Assert", .atom "Revert", .atom reason] =
      "Assert Revert ".toList ++ Event.chars (.atom reason) := by
    rw [Event.charsAll, Event.charsAll, Event.charsAll, hassert, hrevert]
    rfl
  rw [hfront, String.ofList_append, String.ofList_toList]
  rfl

theorem ofLine_revertLine (reason : String) :
    Event.ofLine (revertLine reason) = .ok (Assertion.revert (some reason)).event := by
  rw [revertLine_eq]
  exact Event.ofLine_charsAll _

namespace Runner

theorem processLine_revertLine {i : Runner σ}
    (kept : i.vocabulary.commandFamily? "Assert" = some Standard.assertFamily) (w : World)
    (last : Option Failure) (reason : String) (c : σ) :
    ∃ result, i.processLine ⟨w, last⟩ (revertLine reason) c = (result, c) ∧
      Judged (.revert (some reason)) last w result := by
  have line : (Assertion.revert (some reason)).event.unwrapped =
      (Assertion.revert (some reason)).event := rfl
  have asserts : i.Asserts last (.revert (some reason)) w _ c c := .plain line c
  obtain ⟨result, hroute, hjudged⟩ := route_of_asserts kept asserts
  refine ⟨result, ?_, hjudged⟩
  rw [processLine, ofLine_revertLine]
  exact hroute

theorem processLine_of_holds {i : Runner σ}
    (kept : i.vocabulary.commandFamily? "Assert" = some Standard.assertFamily) (w : World)
    {last : Option Failure} {reason : String}
    (right : (Assertion.revert (some reason)).Holds last) (c : σ) :
    i.processLine ⟨w, last⟩ (revertLine reason) c = (.ok ⟨w, none, none, .view⟩, c) := by
  obtain ⟨result, hline, hjudged⟩ := processLine_revertLine kept w last reason c
  cases hjudged with
  | right h => exact hline
  | wrong h complaint => exact absurd right h

theorem processLine_of_not_holds {i : Runner σ}
    (kept : i.vocabulary.commandFamily? "Assert" = some Standard.assertFamily) (w : World)
    {last : Option Failure} {reason : String}
    (wrong : ¬ (Assertion.revert (some reason)).Holds last) (c : σ) :
    ∃ complaint, i.processLine ⟨w, last⟩ (revertLine reason) c =
      (.error (.handler (.assertion complaint)), c) := by
  obtain ⟨result, hline, hjudged⟩ := processLine_revertLine kept w last reason c
  cases hjudged with
  | right h => exact absurd h wrong
  | wrong h complaint => exact ⟨complaint, hline⟩

end Runner

/-- A call that a program rejects fails and leaves the ledger as it was. A revert becomes one of
the called method, with the reason of the program, which does not end a run; the line that
asserts this reason then passes, and one that asserts another reason ends the run. Any other
error of a program is passed on as it is. -/
theorem Order.rejection_asserted {w : World} {sender : String} {l : LocalLedger} {e : LedgerError}
    {o : Order} (sent : w.sender? = some sender) (wet : w.settings.dryRun = false)
    (rejected : o.Rejected l ⟨some sender, w.txOptions.value⟩ e) :
    ∃ f, o.place w l = (.error f, l) ∧
      (∀ reason, e = .reverted reason →
        (∃ invocation, f = .reverted o.method reason invocation) ∧ f.isFatal = false ∧
        ∀ (i : Runner σ) (v : World) (c : σ),
          i.vocabulary.commandFamily? "Assert" = some Standard.assertFamily →
          i.processLine ⟨v, some f⟩ (revertLine reason) c = (.ok ⟨v, none, none, .view⟩, c) ∧
          ∀ other, other ≠ reason → ∃ complaint,
            i.processLine ⟨v, some f⟩ (revertLine other) c =
              (.error (.handler (.assertion complaint)), c)) ∧
      ((∀ reason, e ≠ .reverted reason) → f = .ledger e ∧ f.isRevert = false) := by
  refine ⟨o.failure e, Order.place_of_rejected sent wet rejected, ?_, ?_⟩
  · rintro reason rfl
    refine ⟨⟨_, rfl⟩, rfl, fun i v c kept => ⟨?_, fun other hother => ?_⟩⟩
    · exact Runner.processLine_of_holds kept v ⟨_, _, rfl⟩ c
    · apply Runner.processLine_of_not_holds kept v
      rintro ⟨method, invocation, hfailure⟩
      cases hfailure
      exact hother rfl
  · intro hother
    rw [o.failure_of_other hother]
    exact ⟨rfl, rfl⟩

def cellLedger : LocalLedger :=
  ((⟨LocalLedger.cells, ["0x01"], .genesis⟩ : LocalLedger).step
    (.deploy "Cell" [.string "5"] .none)).after

def worldOfOwner : World := Runner.worldOfGeoff.withTxOptions ⟨some "0x01", none⟩

def failingSend : Order := .send LocalLedger.firstCell "fail" []

theorem Order.rejection_asserted_cell :
    ∃ f, failingSend.place worldOfOwner cellLedger = (.error f, cellLedger) ∧
      f.reason = "cell: rejected" ∧
      Runner.bankRunner.processLine ⟨worldOfOwner, some f⟩
        "Assert Revert \"cell: rejected\"" () = (.ok ⟨worldOfOwner, none, none, .view⟩, ()) ∧
      ∃ complaint, Runner.bankRunner.processLine ⟨worldOfOwner, some f⟩
        "Assert Revert rejected" () = (.error (.handler (.assertion complaint)), ()) := by
  have hkind : (cellLedger.chain.contract? LocalLedger.firstCell.address).map Contract.kind =
      some "Cell" := by decide +kernel
  obtain ⟨contract, found, kind⟩ := Option.map_eq_some_iff.mp hkind
  have known : cellLedger.programs.get? contract.kind = some (Sample.ownedCell "Cell") := by
    rw [kind]
    rfl
  have rejected : failingSend.Rejected cellLedger ⟨some "0x01", worldOfOwner.txOptions.value⟩
      (.reverted ("Cell".toLower ++ ": rejected")) := .send found known rfl
  have reason : "Cell".toLower ++ ": rejected" = "cell: rejected" := by decide +kernel
  have right : "Assert Revert \"cell: rejected\"" = revertLine "cell: rejected" := by
    decide +kernel
  have wrong : "Assert Revert rejected" = revertLine "rejected" := by decide +kernel
  rw [reason] at rejected
  obtain ⟨f, hplace, hreverts, -⟩ := Order.rejection_asserted rfl rfl rejected
  obtain ⟨⟨invocation, rfl⟩, -, hlines⟩ := hreverts "cell: rejected" rfl
  obtain ⟨hright, hwrong⟩ := hlines Runner.bankRunner worldOfOwner () rfl
  rw [right, wrong]
  exact ⟨_, hplace, rfl, hright, hwrong "rejected" (by decide)⟩

end LedgerScript
