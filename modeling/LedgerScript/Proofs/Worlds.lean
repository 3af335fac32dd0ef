import LedgerScript.Proofs.Recovery
import LedgerScript.Proofs.Runs

/-!
# The worlds of a run

What a line can make of its world is said once, in `Leads`: nothing if its operation failed, a
trace entry if it was a value, and else what the selected operation returned, as seen from outside
the forms. A property that worlds of a run come to have thus begins with one line and
one operation.
-/

set_option autoImplicit false

namespace LedgerScript.Runner

variable {σ : Type}

/-- The line, run on the ledger `s` in the first world, can lead to the second. -/
inductive Leads (i : Runner σ) (last : Option Failure) : World → Event → σ → World → Prop
  | failed (w : World) (e : Event) (s : σ) : Leads i last w e s w
  | traced (w : World) (e : Event) (s : σ) (message : String) :
      Leads i last w e s (w.traced message none)
  | changed {w v : World} {e : Event} {name : String} {rest : List Event} {family : Family σ}
      {op : Operation σ} {b : Arguments} {s t u : σ}
      (line : Line.of e = .plain name rest)
      (named : i.vocabulary.commandFamily? name = some family)
      (selected : family.select (i.vocabulary.scope w last) rest s = (.ok (op, b), t))
      (executed : op.execute (i.vocabulary.scope w last) b t = (.ok v, u)) :
      Leads i last w e s v
  | sender {w v : World} {e who : Event} {command : List Event} {address : String} {s t : σ}
      (line : Line.of e = .sender who command)
      (operand : senderOf (i.vocabulary.scope w last) who s = (.ok address, t))
      (inside : Leads i last (w.withTxOptions ⟨some address, w.txOptions.value⟩)
        (.list command) t v) :
      Leads i last w e s (w.leave (w.withTxOptions ⟨some address, w.txOptions.value⟩) v)
  | value {w v : World} {e amount : Event} {command : List Event} {a : Option String} {s t : σ}
      (line : Line.of e = .value amount command)
      (operand : amountOf (i.vocabulary.scope w last) amount s = (.ok a, t))
      (inside : Leads i last (w.withTxOptions ⟨w.txOptions.sender, a⟩) (.list command) t v) :
      Leads i last w e s (w.leave (w.withTxOptions ⟨w.txOptions.sender, a⟩) v)

section Inversion

variable {i : Runner σ} {last : Option Failure} {w : World} {e : Event} {name : String}
  {rest : List Event} {o : Outcome} {s t : σ}

theorem leads_of_runValueLine {unmatched : Option NoMatch}
    (h : i.runValueLine (i.vocabulary.scope w last) e.unwrapped name rest unmatched t =
      (.ok o, s)) (u : σ) : i.Leads last w e u o.world := by
  cases named : i.vocabulary.valueFamily? name with
  | none =>
    rw [runValueLine_unnamed named] at h
    cases h
  | some family =>
    rw [runValueLine_named named] at h
    obtain ⟨⟨op, b⟩, v, -, hfetch⟩ := LedgerM.bind_eq_ok.mp h
    rcases recovering_cases hfetch with ⟨f, -, rfl⟩ | ⟨v, -, rfl⟩
    · exact .failed w e u
    · exact .traced w e u _

theorem leads_of_runPlain (line : Line.of e = .plain name rest)
    (h : i.runPlain (i.vocabulary.scope w last) e.unwrapped name rest s = (.ok o, t)) :
    i.Leads last w e s o.world := by
  cases named : i.vocabulary.commandFamily? name with
  | none =>
    rw [runPlain_unnamed named] at h
    exact leads_of_runValueLine h s
  | some family =>
    rcases hselect : family.select (i.vocabulary.scope w last) rest s with ⟨n | ⟨op, b⟩, u⟩
    · rw [runPlain_refused named hselect] at h
      exact leads_of_runValueLine h s
    · rw [runPlain_selected named hselect, runChange_eq] at h
      split at h
      · cases h
      · rcases recovering_cases h with ⟨f, -, rfl⟩ | ⟨v, executed, rfl⟩
        · exact .failed w e s
        · exact .changed line named hselect executed

end Inversion

theorem leads_of_leave {i : Runner σ} {last : Option Failure} {w inner : World} {e : Event}
    {o : Outcome} {s : σ} (h : i.Leads last w e s (w.leave inner o.world)) :
    i.Leads last w e s (o.leave w inner).world := by
  rw [Outcome.leave]
  dsimp only
  split
  · exact .failed w e s
  · exact h

/-- What a line that goes through makes of its world. -/
theorem leads_of_route {i : Runner σ} {last : Option Failure} (e : Event) :
    ∀ {w : World} {o : Outcome} {s t : σ}, i.route w last e s = (.ok o, t) →
      i.Leads last w e s o.world := by
  induction e using Line.form_induction with
  | step e ih =>
    intro w o s t h
    rw [route_eq] at h
    cases line : Line.of e with
    | plain name rest =>
      rw [line, runLine] at h
      exact leads_of_runPlain line h
    | sender who command =>
      rw [line, runLine] at h
      obtain ⟨address, u, operand, hnested⟩ := LedgerM.bind_eq_ok.mp h
      obtain ⟨inner, hroute, rfl⟩ := LedgerM.map_eq_ok.mp hnested
      exact leads_of_leave (.sender line operand (ih command (by rw [line]; rfl) hroute))
    | value amount command =>
      rw [line, runLine] at h
      obtain ⟨a, u, operand, hnested⟩ := LedgerM.bind_eq_ok.mp h
      obtain ⟨inner, hroute, rfl⟩ := LedgerM.map_eq_ok.mp hnested
      exact leads_of_leave (.value line operand (ih command (by rw [line]; rfl) hroute))
    | incomplete guide =>
      rw [line] at h
      cases h
    | headless =>
      rw [line] at h
      cases h

theorem exists_line_of_reached {i : Runner σ} {P : World → Prop} {lines : List ScriptLine}
    {s : Session} {r : Report} {c d : σ} (reached : i.runLines s lines c = (.ok r, d))
    (before : ¬ P s.world) (after : P r.world) :
    ∃ front l back q o u v, lines = front ++ l :: back ∧ i.runLines s front c = (.ok q, u) ∧
      i.process (s.afterRun q) l.event u = (.ok o, v) ∧ ¬ P q.world ∧ P o.world := by
  induction lines generalizing s r c with
  | nil =>
    cases reached
    exact absurd after before
  | cons l rest ih =>
    obtain ⟨o, t, q, hline, hrun, rfl⟩ := runLines_cons_eq_ok.mp reached
    by_cases hhere : P o.world
    · exact ⟨[], l, rest, ⟨s.world, []⟩, o, c, t, rfl, rfl, hline, before, hhere⟩
    · obtain ⟨front, k, back, p, x, u, v, rfl, hfront, hk, hbefore, hafter⟩ :=
        ih hrun hhere after
      refine ⟨l :: front, k, back, ⟨p.world, l.report o :: p.lines⟩, x, u, v, rfl,
        runLines_cons_eq_ok.mpr ⟨o, t, p, hline, hfront, rfl⟩, ?_, hbefore, hafter⟩
      rw [Session.afterRun_cons]
      exact hk

end LedgerScript.Runner
