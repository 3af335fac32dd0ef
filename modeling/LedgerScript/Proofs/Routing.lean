import LedgerScript.Proofs.Action
import LedgerScript.Run.Script

/-!
# What a line asks for

Routing looks at the tokens of a line once: it is a form around a smaller command, a form
with parts missing, a plain line with a head word, or none of these. Running the line is then
one step that depends on this alone, and a property of all lines follows from the same
property of the commands inside forms.
-/

set_option autoImplicit false

namespace LedgerScript

inductive Line where
  | plain (name : String) (rest : List Event)
  | sender (who : Event) (command : List Event)
  | value (amount : Event) (command : List Event)
  | incomplete (guide : NoMatch)
  | headless

namespace Line

def ofTokens : List Event → Line
  | .atom name :: rest =>
    if Runner.isForm name "From" then
      match rest with
      | who :: part :: parts => .sender who (part :: parts)
      | rest => .incomplete (fromUsage rest)
    else if Runner.isForm name "Trx" && Runner.hasValueWord rest then
      match rest with
      | _ :: amount :: part :: parts => .value amount (part :: parts)
      | rest => .incomplete (trxUsage (rest.drop 1))
    else .plain name rest
  | _ => .headless

def of (e : Event) : Line := ofTokens e.unwrapped.tokens

theorem of_plain {e : Event} {name : String} {rest : List Event}
    (h : e.unwrapped = .list (.atom name :: rest)) (notFrom : Runner.isForm name "From" = false)
    (notTrx : Runner.isForm name "Trx" = false) : of e = .plain name rest := by
  rw [of, h]
  change ofTokens (.atom name :: rest) = _
  rw [ofTokens.eq_def]
  dsimp only
  rw [if_neg (by simp [notFrom]), if_neg (by simp [notTrx])]

def command? : Line → Option (List Event)
  | .sender _ command => some command
  | .value _ command => some command
  | _ => none

theorem size_command?_lt (e : Event) (command : List Event)
    (h : (of e).command? = some command) : (Event.list command).size < e.size := by
  rw [of, ofTokens.eq_def] at h
  split at h
  · next name rest htokens =>
    split at h
    · rcases rest with _ | ⟨who, _ | ⟨part, parts⟩⟩
      · cases h
      · cases h
      · cases h
        exact Runner.size_command_lt e [.atom name, who] _ htokens (Nat.le_refl _)
    · split at h
      · rcases rest with _ | ⟨word, _ | ⟨amount, _ | ⟨part, parts⟩⟩⟩
        · cases h
        · cases h
        · cases h
        · cases h
          exact Runner.size_command_lt e [.atom name, word, amount] _ htokens (by simp)
      · cases h
  · cases h

/-- Induction over the nesting of forms. -/
theorem form_induction {P : Event → Prop}
    (step : ∀ e, (∀ command, (of e).command? = some command → P (.list command)) → P e)
    (e : Event) : P e := by
  induction h : e.size using Nat.strongRecOn generalizing e with
  | ind n ih =>
    subst h
    exact step e (fun command hc => ih _ (size_command?_lt e command hc) _ rfl)

end Line

namespace Runner

variable {σ : Type}

def nested (i : Runner σ) (w : World) (last : Option Failure) (options : TxOptions)
    (command : List Event) : LedgerM σ RunError Outcome :=
  Outcome.leave w (w.withTxOptions options) <$>
    i.route (w.withTxOptions options) last (.list command)

def runLine (i : Runner σ) (w : World) (last : Option Failure) (e : Event) :
    Line → LedgerM σ RunError Outcome
  | .plain name rest => i.runPlain (i.vocabulary.scope w last) e.unwrapped name rest
  | .sender who command => do
    let a ← senderOf (i.vocabulary.scope w last) who
    i.nested w last ⟨some a, w.txOptions.value⟩ command
  | .value amount command => do
    let v ← amountOf (i.vocabulary.scope w last) amount
    i.nested w last ⟨w.txOptions.sender, v⟩ command
  | .incomplete guide => throw (.noMatch guide)
  | .headless => throw (.unknownFamily e.unwrapped.line)

theorem route_eq (i : Runner σ) (w : World) (last : Option Failure) (e : Event) :
    i.route w last e = i.runLine w last e (Line.of e) := by
  rw [route.eq_def, Line.of]
  dsimp only
  split
  · next name rest h =>
    conv => rhs; rw [h, Line.ofTokens.eq_def]; dsimp only
    split
    · rcases rest with _ | ⟨who, _ | ⟨part, parts⟩⟩
      · rfl
      · rfl
      · simp only [runLine, nested, map_eq_pure_bind]
    · split
      · rcases rest with _ | ⟨word, _ | ⟨amount, _ | ⟨part, parts⟩⟩⟩
        · rfl
        · rfl
        · rfl
        · simp only [runLine, nested, map_eq_pure_bind]
      · rfl
  · next hn =>
    conv => rhs; rw [Line.ofTokens.eq_def]
    split
    · next name rest h => exact absurd h (hn name rest)
    · rfl

section Plain

variable {i : Runner σ} {scope : Scope σ} {name : String} {rest : List Event}
  {family : Family σ} {op : Operation σ} {b : Arguments} {s t : σ}

theorem runPlain_unnamed (h : i.vocabulary.commandFamily? name = none) (e : Event) :
    i.runPlain scope e name rest = i.runValueLine scope e name rest none := by
  rw [runPlain]
  simp only [h]

theorem runPlain_refused {n : NoMatch} (named : i.vocabulary.commandFamily? name = some family)
    (refused : family.select scope rest s = (.error n, t)) (e : Event) :
    i.runPlain scope e name rest s = i.runValueLine scope e name rest (some n) t := by
  rw [runPlain]
  simp only [named, refused]

theorem runPlain_selected (named : i.vocabulary.commandFamily? name = some family)
    (selected : family.select scope rest s = (.ok (op, b), t)) (e : Event) :
    i.runPlain scope e name rest s = i.runChange scope op b t := by
  rw [runPlain]
  simp only [named, selected]

theorem runValueLine_named (named : i.vocabulary.valueFamily? name = some family) (e : Event)
    (unmatched : Option NoMatch) :
    i.runValueLine scope e name rest unmatched =
      (family.select scope rest).restate
          (fun n => .noMatch ((unmatched.map (·.merge n)).getD n)) >>=
        fun (op, b) => i.runFetch scope op b e := by
  rw [runValueLine.eq_def]
  simp only [named]

theorem runValueLine_selected (named : i.vocabulary.valueFamily? name = some family)
    (selected : family.select scope rest s = (.ok (op, b), t)) (e : Event)
    (unmatched : Option NoMatch) :
    i.runValueLine scope e name rest unmatched s = i.runFetch scope op b e t := by
  rw [runValueLine_named named, LedgerM.bind_ok (LedgerM.restate_ok selected _)]

theorem runValueLine_unnamed (h : i.vocabulary.valueFamily? name = none) (e : Event)
    (unmatched : Option NoMatch) :
    i.runValueLine scope e name rest unmatched =
      throw ((unmatched.map RunError.noMatch).getD (.unknownFamily name)) := by
  rw [runValueLine.eq_def]
  simp only [h]
  cases unmatched <;> rfl

end Plain

theorem runChange_eq (i : Runner σ) (scope : Scope σ) (op : Operation σ) (b : Arguments) :
    i.runChange scope op b =
      if op.kind = .command ∧ scope.world.sender? = none then
        throw (.missingSender scope.world.settings.defaultFrom)
      else
        ((fun w => (⟨w, none, none, op.kind⟩ : Outcome)) <$> op.execute scope b).handle
          (fun e => .ofExcept (i.recovered scope.world e op.kind)) := by
  rw [runChange]
  simp only [Bool.and_eq_true, beq_iff_eq, Option.isNone_iff_eq_none]
  split <;> rfl

theorem runChange_of_ok {i : Runner σ} {scope : Scope σ} {op : Operation σ} {b : Arguments}
    {s t : σ} {v : World} (sent : op.kind = .command → scope.world.sender? ≠ none)
    (executed : op.execute scope b s = (.ok v, t)) :
    i.runChange scope op b s = (.ok ⟨v, none, none, op.kind⟩, t) := by
  rw [runChange_eq, if_neg fun unsent => sent unsent.1 unsent.2]
  exact LedgerM.handle_ok (LedgerM.map_ok executed _) _

section Steps

variable {i : Runner σ} {w : World} {last : Option Failure} {e : Event} {name : String}
  {rest command : List Event} {f : Family σ} {op : Operation σ} {b : Arguments} {s t : σ}

theorem route_plain (line : Line.of e = .plain name rest) :
    i.route w last e = i.runPlain (i.vocabulary.scope w last) e.unwrapped name rest := by
  rw [route_eq, line, runLine]

theorem route_selected (line : Line.of e = .plain name rest)
    (named : i.vocabulary.commandFamily? name = some f)
    (selected : f.select (i.vocabulary.scope w last) rest s = (.ok (op, b), t)) :
    i.route w last e s = i.runChange (i.vocabulary.scope w last) op b t := by
  rw [route_plain line, runPlain_selected named selected]

theorem route_sender {who : Event} {a : String} (line : Line.of e = .sender who command)
    (operand : senderOf (i.vocabulary.scope w last) who s = (.ok a, t)) :
    i.route w last e s = i.nested w last ⟨some a, w.txOptions.value⟩ command t := by
  rw [route_eq, line, runLine, LedgerM.bind_ok operand]

theorem route_value {amount : Event} {v : Option String} (line : Line.of e = .value amount command)
    (operand : amountOf (i.vocabulary.scope w last) amount s = (.ok v, t)) :
    i.route w last e s = i.nested w last ⟨w.txOptions.sender, v⟩ command t := by
  rw [route_eq, line, runLine, LedgerM.bind_ok operand]

end Steps

end Runner

end LedgerScript
