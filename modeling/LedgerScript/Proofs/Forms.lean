import LedgerScript.Proofs.Routing
import LedgerScript.Standard.Vocabulary

/-!
# Stacks of forms

Forms around a command only choose the transaction options of the world in which it runs. Each
form sets its own option for what it holds and puts the outer options back; over a whole stack
this comes to one run in the world with the innermost sender and the innermost amount, and to
one return to the world of the line. The revisions count the updates: a stack of `n` forms makes
`n` of them, which are taken back if the command made none.
-/

set_option autoImplicit false

namespace LedgerScript

/-- A form with its operand read. -/
inductive Form where
  | sender (address : String)
  | value (amount : Number)

namespace Form

def sender? : Form → Option String
  | .sender address => some address
  | .value _ => none

def amount? : Form → Option String
  | .sender _ => none
  | .value amount => some amount.plainText

inductive Written (resolve : String → Option String) : Form → List Event → Prop
  | sender {word account address : String} (head : Text.sameWord word "From" = true)
      (known : resolve account = some address) :
      Written resolve (.sender address) [.atom word, .atom account]
  | value {word marker token : String} {amount : Number}
      (head : Text.sameWord word "Trx" = true)
      (marked : verbMatches "Value" (.atom marker) = true)
      (read : Number.parse token = .ok amount) :
      Written resolve (.value amount) [.atom word, .atom marker, .atom token]

/-- The tokens of a command under forms, the outermost first. What a form holds stands behind
it, in parentheses or not. -/
inductive Stacked (resolve : String → Option String) (command : List Event) :
    List Form → List Event → Prop
  | command (someToken : command ≠ []) : Stacked resolve command [] command
  | form {f : Form} {fs : List Form} {head tokens : List Event}
      (written : f.Written resolve head) (inner : Stacked resolve command fs tokens) :
      Stacked resolve command (f :: fs) (head ++ tokens)
  | wrapped {fs : List Form} {tokens : List Event} (inner : Stacked resolve command fs tokens) :
      Stacked resolve command fs [.list tokens]

theorem Stacked.tokens_ne_nil {resolve : String → Option String} {command tokens : List Event}
    {fs : List Form} (h : Stacked resolve command fs tokens) : tokens ≠ [] := by
  cases h with
  | command someToken => exact someToken
  | form written inner => cases written <;> exact List.cons_ne_nil _ _
  | wrapped inner => exact List.cons_ne_nil _ _

theorem length_eq_senders_add_amounts (fs : List Form) :
    fs.length = (fs.filterMap sender?).length + (fs.filterMap amount?).length := by
  induction fs with
  | nil => rfl
  | cons f fs ih =>
    cases f with
    | sender a => simp only [List.length_cons, ih, List.filterMap, sender?, amount?]; omega
    | value n => simp only [List.length_cons, ih, List.filterMap, sender?, amount?]; omega

end Form

namespace World

def inside (w : World) : Form → World
  | .sender address => w.withTxOptions ⟨some address, w.txOptions.value⟩
  | .value amount => w.withTxOptions ⟨w.txOptions.sender, some amount.plainText⟩

/-- The world with the innermost sender and the innermost amount of a stack, as far as it
has them. -/
def under (w : World) (fs : List Form) : World :=
  { w with
    txOptions :=
      ⟨(fs.filterMap Form.sender?).getLast?.or w.txOptions.sender,
        (fs.filterMap Form.amount?).getLast?.or w.txOptions.value⟩
    revision := w.revision + fs.length }

/-- The world `after` a run in `inner`, with the options of `outer` put back; its revision too
if none of its updates came after those that led to `inner`. -/
def restored (outer inner after : World) : World :=
  { after with
    txOptions := outer.txOptions
    revision :=
      if outer.revision ≤ after.revision ∧ after.revision ≤ inner.revision then outer.revision
      else after.revision }

theorem getLast?_cons_or {α : Type} (a : α) (xs : List α) (b : Option α) :
    (a :: xs).getLast?.or b = xs.getLast?.or (some a) := by
  rw [List.getLast?_cons]
  cases xs.getLast? <;> rfl

theorem under_nil (w : World) : w.under [] = w := rfl

theorem under_cons (w : World) (f : Form) (fs : List Form) :
    w.under (f :: fs) = (w.inside f).under fs := by
  have hlength : w.revision + (fs.length + 1) = w.revision + 1 + fs.length := by omega
  cases f with
  | sender a =>
    simp only [under, inside, withTxOptions, List.filterMap, Form.sender?, Form.amount?,
      getLast?_cons_or, List.length_cons, hlength]
  | value n =>
    simp only [under, inside, withTxOptions, List.filterMap, Form.sender?, Form.amount?,
      getLast?_cons_or, List.length_cons, hlength]

theorem resolve?_inside (w : World) (f : Form) : (w.inside f).resolve? = w.resolve? := by
  cases f <;> rfl

theorem revision_inside (w : World) (f : Form) : (w.inside f).revision = w.revision + 1 := by
  cases f <;> rfl

theorem revision_under (w : World) (fs : List Form) :
    (w.under fs).revision = w.revision + fs.length := rfl

theorem leave_inside (w : World) (f : Form) (after : World) :
    w.leave (w.inside f) after = w.restored (w.inside f) after := by
  simp only [leave, restored, isUnchanged, beq_iff_eq, revision_inside]
  congr 1
  split <;> split <;> omega

theorem leave_restored (w : World) (f : Form) (fs : List Form) (after : World) :
    w.leave (w.inside f) ((w.inside f).restored ((w.inside f).under fs) after) =
      w.restored ((w.inside f).under fs) after := by
  simp only [leave, restored, isUnchanged, beq_iff_eq, revision_under, revision_inside]
  congr 1
  split <;> split <;> split <;> omega

end World

namespace Outcome

def restored (outer inner : World) (o : Outcome) : Outcome :=
  { o with world := if o.failure.isSome then outer else outer.restored inner o.world }

/-- What the forms of a stack make of the outcome of their command, one after the other. -/
def unwound (w : World) : List Form → Outcome → Outcome
  | [], o => o
  | f :: fs, o => (unwound (w.inside f) fs o).leave w (w.inside f)

theorem unwound_eq_restored (w : World) (f : Form) (fs : List Form) (o : Outcome) :
    o.unwound w (f :: fs) = o.restored w (w.under (f :: fs)) := by
  induction fs generalizing w f with
  | nil =>
    rw [unwound, unwound, World.under_cons, World.under_nil, leave, restored,
      World.leave_inside]
  | cons g gs ih =>
    rw [unwound, ih, World.under_cons w f, leave]
    cases hf : o.failure with
    | some failure => simp only [restored, hf, Option.isSome_some, if_true]
    | none =>
      simp only [restored, hf, Option.isSome_none, Bool.false_eq_true, if_false,
        World.leave_restored]

end Outcome

namespace Line

theorem of_wrapped (tokens : List Event) : of (.list [.list tokens]) = of (.list tokens) := by
  rw [of, of, Event.unwrapped_wrapped]

theorem of_word (word : String) (rest : List Event) :
    of (.list (.atom word :: rest)) = ofTokens (.atom word :: rest) := by
  rw [of, Event.unwrapped_of_word]
  rfl

theorem of_sender {word : String} (head : Text.sameWord word "From" = true) (who : Event)
    {command : List Event} (someToken : command ≠ []) :
    of (.list (.atom word :: who :: command)) = .sender who command := by
  obtain ⟨part, parts, rfl⟩ := List.exists_cons_of_ne_nil someToken
  rw [of_word, ofTokens.eq_def]
  dsimp only
  rw [if_pos (show Runner.isForm word "From" = true from head)]

theorem not_from_of_trx {word : String} (head : Text.sameWord word "Trx" = true) :
    Runner.isForm word "From" = false := by
  cases hfrom : Runner.isForm word "From" with
  | false => rfl
  | true =>
    have hsame := Text.sameWord_trans "Trx" word "From" (Text.sameWord_symm word "Trx" ▸ head) hfrom
    have hdifferent : Text.sameWord "Trx" "From" = false := by cbv
    rw [hdifferent] at hsame
    cases hsame

theorem of_value {word marker : String} (head : Text.sameWord word "Trx" = true)
    (marked : verbMatches "Value" (.atom marker) = true) (amount : Event)
    {command : List Event} (someToken : command ≠ []) :
    of (.list (.atom word :: .atom marker :: amount :: command)) = .value amount command := by
  obtain ⟨part, parts, rfl⟩ := List.exists_cons_of_ne_nil someToken
  rw [of_word, ofTokens.eq_def]
  dsimp only
  rw [if_neg (by simp [not_from_of_trx head]), if_pos]
  rw [Bool.and_eq_true]
  exact ⟨head, marked⟩

end Line

namespace Runner

variable {σ : Type}

theorem senderOf_word {scope : Scope σ} {account address : String}
    (known : scope.world.resolve? account = some address) :
    senderOf scope (.atom account) = pure address := by
  funext s
  simp only [senderOf, Shape.read, known]
  rfl

theorem amountOf_word {scope : Scope σ} {token : String} {amount : Number}
    (read : Number.parse token = .ok amount) :
    amountOf scope (.atom token) = pure (some amount.plainText) := by
  funext s
  simp only [amountOf, Shape.read, read]
  rfl

theorem route_wrapped (i : Runner σ) (w : World) (last : Option Failure)
    (tokens : List Event) :
    i.route w last (.list [.list tokens]) = i.route w last (.list tokens) := by
  rw [route_eq, route_eq, Line.of_wrapped]
  cases Line.of (.list tokens) <;> simp only [runLine, Event.unwrapped_wrapped]

theorem route_form {w : World} {f : Form} {head tokens : List Event} (i : Runner σ)
    (last : Option Failure) (written : f.Written w.resolve? head) (someToken : tokens ≠ []) :
    i.route w last (.list (head ++ tokens)) =
      Outcome.leave w (w.inside f) <$> i.route (w.inside f) last (.list tokens) := by
  cases written with
  | @sender word account address hhead known =>
    have hline := Line.of_sender hhead (.atom account) someToken
    have hoperand : senderOf (i.vocabulary.scope w last) (.atom account) = pure address :=
      senderOf_word known
    change i.route w last (.list (.atom word :: .atom account :: tokens)) = _
    rw [route_eq, hline, runLine, hoperand, pure_bind]
    rfl
  | @value word marker token amount hhead marked read =>
    have hline := Line.of_value hhead marked (.atom token) someToken
    have hoperand : amountOf (i.vocabulary.scope w last) (.atom token) =
        pure (some amount.plainText) := amountOf_word read
    change i.route w last (.list (.atom word :: .atom marker :: .atom token :: tokens)) = _
    rw [route_eq, hline, runLine, hoperand, pure_bind]
    rfl

theorem route_stacked {resolve : String → Option String} {command tokens : List Event}
    {fs : List Form} (i : Runner σ) (last : Option Failure)
    (h : Form.Stacked resolve command fs tokens) (w : World) (hw : w.resolve? = resolve) :
    i.route w last (.list tokens) =
      Outcome.unwound w fs <$> i.route (w.under fs) last (.list command) := by
  induction h generalizing w with
  | command someToken => exact (id_map _).symm
  | @form f fs head tokens written inner ih =>
    have hinner := ih (w.inside f) ((w.resolve?_inside f).trans hw)
    rw [route_form i last (hw ▸ written) inner.tokens_ne_nil, hinner, World.under_cons,
      ← comp_map]
    rfl
  | wrapped inner ih => rw [route_wrapped, ih w hw]

/-- A line under a stack of forms comes to what its command comes to in the world with the
stack's options, and a failure gives back the world of the line, anything else the world of
the command with the options of the line. So forms of different kinds may change places, and
no option outlives the line. -/
theorem forms_set_options {w : World} {command tokens : List Event} {fs : List Form}
    (i : Runner σ) (last : Option Failure) (h : Form.Stacked w.resolve? command fs tokens)
    (someForm : fs ≠ []) :
    (i.process ⟨w, last⟩ (.list tokens) =
      Outcome.restored w (w.under fs) <$> i.process ⟨w.under fs, last⟩ (.list command)) ∧
    (∀ gs others, Form.Stacked w.resolve? command gs others →
      gs.filterMap Form.sender? = fs.filterMap Form.sender? →
        gs.filterMap Form.amount? = fs.filterMap Form.amount? →
          i.process ⟨w, last⟩ (.list others) = i.process ⟨w, last⟩ (.list tokens)) ∧
    (∀ s o t, i.process ⟨w, last⟩ (.list tokens) s = (.ok o, t) →
      o.world.txOptions = w.txOptions) := by
  have hrestored {gs : List Form} {others : List Event}
      (k : Form.Stacked w.resolve? command gs others) (hgs : gs ≠ []) :
      i.process ⟨w, last⟩ (.list others) =
        Outcome.restored w (w.under gs) <$> i.process ⟨w.under gs, last⟩ (.list command) := by
    obtain ⟨g, rest, rfl⟩ := List.exists_cons_of_ne_nil hgs
    have hunwound : Outcome.unwound w (g :: rest) = Outcome.restored w (w.under (g :: rest)) :=
      funext (Outcome.unwound_eq_restored w g rest)
    rw [← hunwound]
    exact route_stacked i last k w rfl
  refine ⟨hrestored h someForm, ?_, ?_⟩
  · intro gs others k hsenders hamounts
    have hlength : gs.length = fs.length := by
      rw [Form.length_eq_senders_add_amounts gs, hsenders, hamounts,
        ← Form.length_eq_senders_add_amounts fs]
    have hgs : gs ≠ [] := by
      intro hnil
      rw [hnil] at hlength
      exact someForm (List.length_eq_zero_iff.mp hlength.symm)
    have hunder : w.under gs = w.under fs := by
      simp only [World.under, hsenders, hamounts, hlength]
    rw [hrestored k hgs, hrestored h someForm, hunder]
  · intro s o t hrun
    rw [hrestored h someForm] at hrun
    obtain ⟨inner, -, rfl⟩ := LedgerM.map_eq_ok.mp hrun
    rw [Outcome.restored]
    dsimp only
    split <;> rfl

def richRunner : Runner Unit := ⟨Standard.vocabulary, .standard⟩

def worldOfTorrey : World := (World.start .standard).withAccount "Torrey" "0x02"

theorem forms_set_options_nested :
    let w := worldOfTorrey
    let inner : World := { w with txOptions := ⟨some "0x02", some "5"⟩, revision := 3 }
    richRunner.process ⟨w, none⟩
        (.list [.atom "From", .atom "Torrey",
          .list [.atom "trx", .atom "value", .atom "5", .atom "Print", .atom "hi"]]) =
      Outcome.restored w inner <$>
        richRunner.process ⟨inner, none⟩ (.list [.atom "Print", .atom "hi"]) := by
  have sender : (Form.sender "0x02").Written worldOfTorrey.resolve?
      [.atom "From", .atom "Torrey"] := .sender (by cbv) (by decide)
  have amount : Number.parse? "5" = some (.ofInt 5) := by decide +kernel
  have value : (Form.value (.ofInt 5)).Written worldOfTorrey.resolve?
      [.atom "trx", .atom "value", .atom "5"] :=
    .value (by cbv) (by cbv) ((Number.parse?_eq_some_iff _ _).mp amount)
  have stacked := Form.Stacked.form sender
    (.wrapped (.form value (.command (List.cons_ne_nil (.atom "Print") [.atom "hi"]))))
  exact (forms_set_options richRunner none stacked (List.cons_ne_nil _ _)).1

end Runner

end LedgerScript
