import LedgerScript.Proofs.Reading
import LedgerScript.Proofs.Runs

/-!
# Scripts run one after the other

The script of two texts with a newline between them runs the first and, in the world and on the
ledger that this leaves, the second. What goes from one to the other is the world alone, unless
the latest command of the first failed. Reports and errors of the second keep what they say;
their line numbers count on.
-/

set_option autoImplicit false

namespace LedgerScript

variable {σ : Type}

def LineReport.shifted (x : LineReport) (d : Nat) : LineReport := { x with line := x.line + d }

def Report.shifted (r : Report) (d : Nat) : Report := { r with lines := r.lines.map (·.shifted d) }

def ScriptError.shifted (e : ScriptError) (d : Nat) : ScriptError := { e with line := e.line + d }

namespace Runner

theorem runLines_shifted (i : Runner σ) (d : Nat) (lines : List ScriptLine) :
    ∀ s, i.runLines s (lines.map (·.shifted d)) =
      ((·.shifted d) <$> i.runLines s lines).restate (·.shifted d) := by
  induction lines with
  | nil => exact fun _ => rfl
  | cons l rest ih =>
    intro s
    funext c
    rw [List.map_cons, LedgerM.restate_apply, LedgerM.map_apply]
    rcases hline : i.process s l.event c with ⟨e | o, u⟩
    · have hshifted : i.process s (l.shifted d).event c = (.error e, u) := hline
      rw [runLines_error hline, runLines_error hshifted]
      rfl
    · have hshifted : i.process s (l.shifted d).event c = (.ok o, u) := hline
      rw [runLines_cons hline, runLines_cons hshifted, LedgerM.map_apply, LedgerM.map_apply, ih,
        LedgerM.restate_apply, LedgerM.map_apply]
      cases (i.runLines (s.after o) rest u).1 <;> rfl

theorem runScript_of_firstMalformed (i : Runner σ) (w : World) {text source : String} {n : Nat}
    {e : SyntaxError} (h : Script.FirstMalformed (Text.lines text) n source e) :
    i.runScript w text = throw ⟨n, source, .malformed e⟩ := by
  have hline : e.place.line = n := by
    obtain ⟨_, _, _, -, -, -, -, fault, -⟩ := h
    exact Event.line_of_ofLineAt fault
  rw [i.runScript_of_unread w (Script.readFrom_of_firstMalformed h), hline,
    Script.sourceAt_of_firstMalformed h]

/-- Where a line of either text is malformed, the joined script fails at the first such line,
under its number there, and does nothing. Otherwise it fails as the first text does; and if that
gives a report, the latest command of which did not fail, it goes on as a script of the second
text does in the world of the report, with the numbers of its lines moved on. -/
theorem runScript_joined (i : Runner σ) (w : World) (first second : String) (c : σ) :
    let joined := first ++ "\n" ++ second
    let d := first.toList.count '\n' + 1
    let one := Text.lines first
    let two := Text.lines second
    (¬ Script.WellFormed one → ∃ n source e, Script.FirstMalformed one n source e ∧
      i.runScript w joined c = (.error ⟨n, source, .malformed e⟩, c)) ∧
    (Script.WellFormed one → ¬ Script.WellFormed two →
      ∃ n source e, Script.FirstMalformed two n source e ∧
        i.runScript w joined c = (.error ⟨n + d, source, .malformed (e.atLine (n + d))⟩, c)) ∧
    (Script.WellFormed one → Script.WellFormed two →
      (∀ e u, i.runScript w first c = (.error e, u) → i.runScript w joined c = (.error e, u)) ∧
      (∀ r u, i.runScript w first c = (.ok r, u) → commandFailure r.lines = none →
        (∀ q t, i.runScript r.world second u = (.ok q, t) →
          i.runScript w joined c = (.ok (r.followedBy (q.shifted d)), t)) ∧
        (∀ e t, i.runScript r.world second u = (.error e, t) →
          i.runScript w joined c = (.error (e.shifted d), t)))) := by
  intro joined d one two
  have hlines : Text.lines joined = Text.lines (first ++ "\n") ++ two :=
    Text.lines_joined first second
  refine ⟨?_, ?_, ?_⟩
  · intro hone
    obtain ⟨n, source, e, hfirst⟩ := Script.exists_firstMalformed hone
    have hjoined : Script.FirstMalformed (Text.lines joined) n source e :=
      hlines ▸ hfirst.ended.append two
    exact ⟨n, source, e, hfirst, congrFun (i.runScript_of_firstMalformed w hjoined) c⟩
  · intro hone htwo
    obtain ⟨n, source, e, hsecond⟩ := Script.exists_firstMalformed htwo
    have hafter := hsecond.after hone.ended
    rw [Text.length_lines_ended, ← hlines] at hafter
    exact ⟨n, source, e, hsecond, congrFun (i.runScript_of_firstMalformed w hafter) c⟩
  · intro hone htwo
    obtain ⟨ls, hls⟩ := Script.readFrom_of_wellFormed hone 1
    obtain ⟨ms, hms⟩ := Script.readFrom_of_wellFormed htwo 1
    have hread : Script.read joined = .ok (ls ++ ms.map (·.shifted d)) :=
      Script.read_joined hls hms
    rw [i.runScript_of_read w hls, i.runScript_of_read w hread]
    refine ⟨fun e u h => runLines_append_of_error h _, fun r u h succeeded => ?_⟩
    have hrun : i.runLines (.start w) (ls ++ ms.map (·.shifted d)) c =
        (r.followedBy <$> ((·.shifted d) <$> i.runScript r.world second).restate (·.shifted d)) u := by
      rw [runLines_append h, Session.afterRun_start, succeeded, runLines_shifted,
        i.runScript_of_read r.world hms]
      rfl
    rw [hrun]
    refine ⟨fun q t h => ?_, fun e t h => ?_⟩
    · exact LedgerM.map_ok (LedgerM.restate_ok (LedgerM.map_ok h _) _) _
    · exact LedgerM.map_error (LedgerM.restate_error (LedgerM.map_error h _) _) _

def greeting : String := "Print hi\r"

def farewell : String := "\nPrint bye"

def greetingReport : Report := ⟨worldAfterPrint, [⟨1, "Print hi", .view, none, none⟩]⟩

def farewellReport : Report :=
  ⟨worldAfterPrint.traced "bye" none, [⟨2, "Print bye", .view, none, none⟩]⟩

theorem runScript_joined_greetings :
    bankRunner.runScript worldOfGeoff greeting () = (.ok greetingReport, ()) ∧
    bankRunner.runScript worldAfterPrint farewell () = (.ok farewellReport, ()) ∧
    bankRunner.runScript worldOfGeoff (greeting ++ "\n" ++ farewell) () =
      (.ok ⟨farewellReport.world,
        [⟨1, "Print hi", .view, none, none⟩, ⟨3, "Print bye", .view, none, none⟩]⟩, ()) := by
  let greets : ScriptLine := ⟨1, "Print hi", .list [.atom "Print", .atom "hi"]⟩
  let parts : ScriptLine := ⟨2, "Print bye", .list [.atom "Print", .atom "bye"]⟩
  have readable (line : String) (e : Event) (h : Event.ofLine line = .ok e) :
      Script.Readable line := .inr ⟨e, h⟩
  have one : Script.WellFormed (Text.lines greeting) := by
    rw [show Text.lines greeting = [greeting] by decide +kernel, Script.WellFormed,
      List.forall_mem_singleton]
    exact readable _ greets.event (by decide +kernel)
  have two : Script.WellFormed (Text.lines farewell) := by
    rw [show Text.lines farewell = ["", "Print bye"] by decide +kernel, Script.WellFormed,
      List.forall_mem_cons, List.forall_mem_singleton]
    exact ⟨.inl (by decide +kernel), readable _ parts.event (by decide +kernel)⟩
  have hgreet : bankRunner.process (.start worldOfGeoff) greets.event () =
      (.ok ⟨worldAfterPrint, none, none, .view⟩, ()) := by cbv
  have hpart : bankRunner.process (.start worldAfterPrint) parts.event () =
      (.ok ⟨worldAfterPrint.traced "bye" none, none, none, .view⟩, ()) := by cbv
  have first : bankRunner.runScript worldOfGeoff greeting () = (.ok greetingReport, ()) := by
    rw [runScript_of_read _ _ (show Script.read greeting = .ok [greets] by decide +kernel)]
    exact runLines_cons_eq_ok.mpr ⟨_, _, ⟨worldAfterPrint, []⟩, hgreet, rfl, rfl⟩
  have second : bankRunner.runScript worldAfterPrint farewell () = (.ok farewellReport, ()) := by
    rw [runScript_of_read _ _ (show Script.read farewell = .ok [parts] by decide +kernel)]
    exact runLines_cons_eq_ok.mpr ⟨_, _, ⟨farewellReport.world, []⟩, hpart, rfl, rfl⟩
  obtain ⟨-, -, hruns⟩ := runScript_joined bankRunner worldOfGeoff greeting farewell ()
  exact ⟨first, second, ((hruns one two).2 greetingReport () first rfl).1 farewellReport () second⟩

end Runner

end LedgerScript
