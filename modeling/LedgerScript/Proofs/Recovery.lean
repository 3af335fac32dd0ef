import LedgerScript.Proofs.Routing

/-!
# Recovery from failed operations

A line comes to at most one operation of a command or value family, possibly inside forms, and
`HandlerFails` says that this operation failed while it ran. Such a failure is the whole outcome
of the line: either it ends the run, or the line keeps the world that it started from,
whatever the operation and the forms around it did to their own.
-/

set_option autoImplicit false

namespace LedgerScript.Runner

variable {σ α : Type}

theorem recovered_eq_ok {i : Runner σ} {w : World} {f : Failure} {kind : Kind} {o : Outcome}
    (h : i.recovered w f kind = .ok o) :
    o = ⟨w, none, some f, kind⟩ ∧ f.isFatal = false ∧ i.config.haltOnFailure = false := by
  rw [recovered] at h
  split at h
  · cases h
  · next hcalm =>
    rw [Bool.not_eq_true, Bool.or_eq_false_iff] at hcalm
    cases h
    exact ⟨rfl, hcalm⟩

theorem map_leave_recovered (i : Runner σ) (w inner : World) (f : Failure) (kind : Kind) :
    (i.recovered inner f kind).map (Outcome.leave w inner) = i.recovered w f kind := by
  rw [recovered, recovered]
  split <;> rfl

section Recovering

variable {i : Runner σ} {w : World} {kind : Kind} {x : LedgerM σ Failure α} {done : α → Outcome}
  {s t : σ} {f : Failure}

theorem recovering_of_error (h : x s = (.error f, t)) :
    ((done <$> x).handle (fun e => .ofExcept (i.recovered w e kind))) s =
      (i.recovered w f kind, t) := by
  rw [LedgerM.handle_error (LedgerM.map_error h done)]
  rfl

theorem recovering_cases {o : Outcome}
    (h : ((done <$> x).handle (fun e => .ofExcept (i.recovered w e kind))) s = (.ok o, t)) :
    (∃ f, x s = (.error f, t) ∧ o = ⟨w, none, some f, kind⟩) ∨
      ∃ a, x s = (.ok a, t) ∧ o = done a := by
  rcases hx : x s with ⟨e | a, u⟩
  · rw [recovering_of_error hx] at h
    injection h with hresult hledger
    exact .inl ⟨e, by rw [hledger], (recovered_eq_ok hresult).1⟩
  · rw [LedgerM.handle_ok (LedgerM.map_ok hx done)] at h
    cases h
    exact .inr ⟨a, rfl, rfl⟩

theorem error_of_recovering {o : Outcome} (hdone : ∀ a, (done a).failure = none)
    (h : ((done <$> x).handle (fun e => .ofExcept (i.recovered w e kind))) s = (.ok o, t))
    (hf : o.failure = some f) : x s = (.error f, t) ∧ o.kind = kind := by
  rcases recovering_cases h with ⟨e, hx, rfl⟩ | ⟨a, -, rfl⟩
  · cases hf
    exact ⟨hx, rfl⟩
  · rw [hdone] at hf
    cases hf

theorem ok_of_recovering {o : Outcome}
    (h : ((done <$> x).handle (fun e => .ofExcept (i.recovered w e kind))) s = (.ok o, t))
    (success : o.failure = none) : ∃ a, x s = (.ok a, t) ∧ o = done a := by
  rcases recovering_cases h with ⟨e, -, rfl⟩ | hdone
  · cases success
  · exact hdone

end Recovering

/-- No command takes the line: its head word names no command family, or one that refuses the
tokens. -/
def LeftToValues (i : Runner σ) (scope : Scope σ) (name : String) (rest : List Event)
    (s t : σ) : Prop :=
  match i.vocabulary.commandFamily? name with
  | none => t = s
  | some f => ∃ n, f.select scope rest s = (.error n, t)

/-- The operation that a line comes to fails. -/
inductive HandlerFails (i : Runner σ) (last : Option Failure) :
    World → Event → σ → Failure → Kind → σ → Prop
  | change {w : World} {e : Event} {name : String} {rest : List Event} {family : Family σ}
      {op : Operation σ} {b : Arguments} {f : Failure} {s t u : σ}
      (line : Line.of e = .plain name rest)
      (named : i.vocabulary.commandFamily? name = some family)
      (selected : family.select (i.vocabulary.scope w last) rest s = (.ok (op, b), t))
      (sent : op.kind = .command → w.sender? ≠ none)
      (failed : op.execute (i.vocabulary.scope w last) b t = (.error f, u)) :
      HandlerFails i last w e s f op.kind u
  | fetch {w : World} {e : Event} {name : String} {rest : List Event} {family : Family σ}
      {op : Operation σ} {b : Arguments} {f : Failure} {s t u v : σ}
      (line : Line.of e = .plain name rest)
      (left : i.LeftToValues (i.vocabulary.scope w last) name rest s t)
      (named : i.vocabulary.valueFamily? name = some family)
      (selected : family.select (i.vocabulary.scope w last) rest t = (.ok (op, b), u))
      (failed : op.fetch (i.vocabulary.scope w last) b u = (.error f, v)) :
      HandlerFails i last w e s f .fetcher v
  | sender {w : World} {e who : Event} {command : List Event} {a : String} {f : Failure}
      {kind : Kind} {s t u : σ}
      (line : Line.of e = .sender who command)
      (operand : senderOf (i.vocabulary.scope w last) who s = (.ok a, t))
      (inside : HandlerFails i last (w.withTxOptions ⟨some a, w.txOptions.value⟩)
        (.list command) t f kind u) :
      HandlerFails i last w e s f kind u
  | value {w : World} {e amount : Event} {command : List Event} {v : Option String}
      {f : Failure} {kind : Kind} {s t u : σ}
      (line : Line.of e = .value amount command)
      (operand : amountOf (i.vocabulary.scope w last) amount s = (.ok v, t))
      (inside : HandlerFails i last (w.withTxOptions ⟨w.txOptions.sender, v⟩)
        (.list command) t f kind u) :
      HandlerFails i last w e s f kind u

theorem runPlain_of_leftToValues {i : Runner σ} {scope : Scope σ} {name : String}
    {rest : List Event} {s t : σ} (h : i.LeftToValues scope name rest s t) (e : Event) :
    ∃ unmatched, i.runPlain scope e name rest s =
      i.runValueLine scope e name rest unmatched t := by
  unfold LeftToValues at h
  split at h
  · next hnone => exact ⟨none, by rw [runPlain_unnamed hnone, h]⟩
  · next family named =>
    obtain ⟨n, refused⟩ := h
    exact ⟨some n, runPlain_refused named refused e⟩

theorem nested_of_route {i : Runner σ} {w : World} {last : Option Failure}
    {options : TxOptions} {command : List Event} {f : Failure} {kind : Kind} {s t : σ}
    (h : i.route (w.withTxOptions options) last (.list command) s =
      (i.recovered (w.withTxOptions options) f kind, t)) :
    i.nested w last options command s = (i.recovered w f kind, t) := by
  rw [nested, LedgerM.map_apply, h, map_leave_recovered]

/-- The failure of the operation that a line comes to decides the outcome of the line. -/
theorem route_of_handlerFails {i : Runner σ} {last : Option Failure} {w : World} {e : Event}
    {f : Failure} {kind : Kind} {s t : σ} (h : HandlerFails i last w e s f kind t) :
    i.route w last e s = (i.recovered w f kind, t) := by
  induction h with
  | change line named selected sent failed =>
    rw [route_selected line named selected, runChange_eq, if_neg fun h => sent h.1 h.2]
    exact recovering_of_error failed
  | fetch line left named selected failed =>
    obtain ⟨unmatched, hplain⟩ := runPlain_of_leftToValues left _
    rw [route_plain line, hplain, runValueLine_selected named selected]
    exact recovering_of_error failed
  | sender line operand _ ih =>
    rw [route_sender line operand]
    exact nested_of_route ih
  | value line operand _ ih =>
    rw [route_value line operand]
    exact nested_of_route ih

section Reported

variable {i : Runner σ} {last : Option Failure} {w : World} {e : Event} {name : String}
  {rest : List Event} {o : Outcome} {f : Failure} {s t u : σ}

theorem execute_of_runChange {scope : Scope σ} {op : Operation σ} {b : Arguments}
    (h : i.runChange scope op b s = (.ok o, t)) (hf : o.failure = some f) :
    (op.kind = .command → scope.world.sender? ≠ none) ∧
      op.execute scope b s = (.error f, t) ∧ o.kind = op.kind := by
  rw [runChange_eq] at h
  split at h
  · cases h
  · next hsent =>
    exact ⟨fun hkind hnone => hsent ⟨hkind, hnone⟩, error_of_recovering (fun _ => rfl) h hf⟩

theorem handlerFails_of_runValueLine {unmatched : Option NoMatch}
    (line : Line.of e = .plain name rest)
    (left : i.LeftToValues (i.vocabulary.scope w last) name rest s t)
    (h : i.runValueLine (i.vocabulary.scope w last) e.unwrapped name rest unmatched t = (.ok o, u))
    (hf : o.failure = some f) : HandlerFails i last w e s f o.kind u := by
  cases named : i.vocabulary.valueFamily? name with
  | none =>
    rw [runValueLine_unnamed named] at h
    cases h
  | some family =>
    rw [runValueLine_named named] at h
    obtain ⟨⟨op, b⟩, v, hselect, hfetch⟩ := LedgerM.bind_eq_ok.mp h
    have selected := LedgerM.restate_eq_ok.mp hselect
    obtain ⟨failed, hkind⟩ := error_of_recovering (fun _ => rfl) hfetch hf
    rw [hkind]
    exact .fetch line left named selected failed

theorem handlerFails_of_runPlain (line : Line.of e = .plain name rest)
    (h : i.runPlain (i.vocabulary.scope w last) e.unwrapped name rest s = (.ok o, u))
    (hf : o.failure = some f) : HandlerFails i last w e s f o.kind u := by
  cases named : i.vocabulary.commandFamily? name with
  | none =>
    rw [runPlain_unnamed named] at h
    refine handlerFails_of_runValueLine line ?_ h hf
    rw [LeftToValues, named]
  | some family =>
    rcases hselect : family.select (i.vocabulary.scope w last) rest s with ⟨n | ⟨op, b⟩, t⟩
    · rw [runPlain_refused named hselect] at h
      refine handlerFails_of_runValueLine line ?_ h hf
      rw [LeftToValues, named]
      exact ⟨n, hselect⟩
    · rw [runPlain_selected named hselect] at h
      obtain ⟨sent, failed, hkind⟩ := execute_of_runChange h hf
      rw [hkind]
      exact .change line named hselect sent failed

end Reported

theorem handlerFails_of_route {i : Runner σ} {last : Option Failure} {f : Failure} (e : Event) :
    ∀ {w : World} {o : Outcome} {s u : σ}, i.route w last e s = (.ok o, u) →
      o.failure = some f → HandlerFails i last w e s f o.kind u := by
  induction e using Line.form_induction with
  | step e ih =>
    intro w o s u h hf
    rw [route_eq] at h
    cases line : Line.of e with
    | plain name rest =>
      rw [line, runLine] at h
      exact handlerFails_of_runPlain line h hf
    | sender who command =>
      rw [line, runLine] at h
      obtain ⟨a, t, operand, hnested⟩ := LedgerM.bind_eq_ok.mp h
      obtain ⟨inner, hroute, rfl⟩ := LedgerM.map_eq_ok.mp hnested
      have inside : HandlerFails i last _ _ t f inner.kind u :=
        ih command (by rw [line]; rfl) hroute hf
      exact .sender line operand inside
    | value amount command =>
      rw [line, runLine] at h
      obtain ⟨v, t, operand, hnested⟩ := LedgerM.bind_eq_ok.mp h
      obtain ⟨inner, hroute, rfl⟩ := LedgerM.map_eq_ok.mp hnested
      have inside : HandlerFails i last _ _ t f inner.kind u :=
        ih command (by rw [line]; rfl) hroute hf
      exact .value line operand inside
    | incomplete guide =>
      rw [line] at h
      cases h
    | headless =>
      rw [line] at h
      cases h

/-- An outcome with a failure is the very world of the line and no value, and the failure is a
mild one of the operation that the line came to, in a run that goes on after failures. Where
that failure is fatal or the run halts at any, there is no outcome but the failure itself. -/
theorem failed_line_keeps_world (i : Runner σ) (w : World) (last : Option Failure) (e : Event)
    (s t : σ) (f : Failure) :
    (∀ o, i.process ⟨w, last⟩ e s = (.ok o, t) → o.failure = some f →
      o.world = w ∧ o.value = none ∧ f.isFatal = false ∧ i.config.haltOnFailure = false ∧
        HandlerFails i last w e s f o.kind t) ∧
    (∀ kind, HandlerFails i last w e s f kind t →
      i.process ⟨w, last⟩ e s =
        (if f.isFatal ∨ i.config.haltOnFailure then .error (.handler f)
          else .ok ⟨w, none, some f, kind⟩, t)) := by
  constructor
  · intro o h hf
    have hfails := handlerFails_of_route e h hf
    have hrecovered : i.recovered w f o.kind = .ok o := by
      have hroute := h.symm.trans (route_of_handlerFails hfails)
      injection hroute with hresult
      exact hresult.symm
    obtain ⟨ho, hmild, hgoes⟩ := recovered_eq_ok hrecovered
    exact ⟨by rw [ho], by rw [ho], hmild, hgoes, hfails⟩
  · intro kind hfails
    have hroute := route_of_handlerFails hfails
    change i.process ⟨w, last⟩ e s = _ at hroute
    rw [hroute, recovered]
    simp only [Bool.or_eq_true]

def refusing : Operation Unit :=
  .command "Call" [] (fun _ _ => throw (.unknownAlias "Vault")) "Calls what is not there."

def refusingFamily : Family Unit :=
  ⟨"Bank", [refusing], Family.wellFormed_of_complaint? _ rfl⟩

def refusingRunner : Runner Unit := ⟨Vocabulary.bare.addCommands refusingFamily, .standard⟩

def worldOfGeoff : World := (World.start .standard).withAccount "Geoff" "0x01"

theorem failed_line_keeps_world_in_form :
    refusingRunner.process ⟨worldOfGeoff, none⟩
        (.list [.atom "From", .atom "Geoff", .list [.atom "Bank", .atom "call"]]) () =
      (.ok ⟨worldOfGeoff, none, some (.unknownAlias "Vault"), .command⟩, ()) ∧
    Failure.isFatal (.unknownAlias "Vault") = false := by
  let inner := worldOfGeoff.withTxOptions ⟨some "0x01", worldOfGeoff.txOptions.value⟩
  let scope := refusingRunner.vocabulary.scope inner none
  have bank : Line.of (.list [.list [.atom "Bank", .atom "call"]]) =
      .plain "Bank" [.atom "call"] := by cbv
  have selected : refusingFamily.select scope [.atom "call"] () =
      (.ok (refusing, .empty), ()) := by cbv
  have inside : HandlerFails refusingRunner none inner
      (.list [.list [.atom "Bank", .atom "call"]]) () (.unknownAlias "Vault") .command () :=
    .change bank rfl selected (fun _ => by decide) rfl
  have line : Line.of (.list [.atom "From", .atom "Geoff",
      .list [.atom "Bank", .atom "call"]]) =
        .sender (.atom "Geoff") [.list [.atom "Bank", .atom "call"]] := by cbv
  have operand : senderOf (refusingRunner.vocabulary.scope worldOfGeoff none) (.atom "Geoff") () =
      (.ok "0x01", ()) := rfl
  have h := failed_line_keeps_world refusingRunner worldOfGeoff none
    (.list [.atom "From", .atom "Geoff", .list [.atom "Bank", .atom "call"]]) () ()
    (.unknownAlias "Vault")
  have hrun := h.2 _ (.sender line operand inside)
  rw [if_neg (by decide)] at hrun
  exact ⟨hrun, (h.1 _ hrun rfl).2.2.1⟩

end LedgerScript.Runner
