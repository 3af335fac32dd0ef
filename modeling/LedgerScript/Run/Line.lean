import LedgerScript.Config.Basic
import LedgerScript.Language.Evaluation
import LedgerScript.Syntax.Token

/-!
# Running a line

The forms `From <account> <command>` and `Trx Value <amount> <command>` set transaction options
for the command inside them only. Any other line goes to the command family that its
head word names, or else to the value family of that name, whose value is traced. An
operation whose failure is not fatal leaves the world as it was.
-/

set_option autoImplicit false

namespace LedgerScript

inductive RunError where
  | malformed (cause : SyntaxError)
  | noMatch (cause : NoMatch)
  | handler (cause : Failure)
  | unknownFamily (name : String)
  | missingSender (name : String)

def RunError.message : RunError → String
  | .malformed cause => cause.message
  | .noMatch cause => cause.message
  | .handler cause => cause.message
  | .unknownFamily name => "unknown command `" ++ name ++ "`"
  | .missingSender name => "no sender: `" ++ name ++ "` does not name an account"

/-- What a line comes to: the next world, the value of a value line, and the failure of an
operation, which leaves the world unchanged. -/
structure Outcome where
  world : World
  value : Option Value
  failure : Option Failure
  kind : Kind

def formUsage (name usage doc : String) (tokens : List Event) : NoMatch :=
  ⟨name, " ".intercalate (name :: tokens.map Event.text), [], [⟨name ++ " " ++ usage, doc⟩]⟩

def fromUsage (tokens : List Event) : NoMatch :=
  formUsage "From" "<account:Address> <command...>"
    "Runs the command with the given account as sender." tokens

def trxUsage (tokens : List Event) : NoMatch :=
  formUsage "Trx" "Value <amount:Number> <command...>"
    "Attaches a native value to the transactions of the command." tokens

def Outcome.leave (outer inner : World) (o : Outcome) : Outcome :=
  { o with world := if o.failure.isSome then outer else outer.leave inner o.world }

structure Runner (σ : Type) where
  vocabulary : Vocabulary σ
  config : Config

namespace Runner

variable {σ : Type}

def recovered (i : Runner σ) (w : World) (e : Failure) (kind : Kind) :
    Except RunError Outcome :=
  if e.isFatal || i.config.haltOnFailure then .error (.handler e)
  else .ok ⟨w, none, some e, kind⟩

def runChange (i : Runner σ) (scope : Scope σ) (op : Operation σ) (b : Arguments) :
    LedgerM σ RunError Outcome := do
  if op.kind == .command && scope.world.sender?.isNone then
    throw (.missingSender scope.world.settings.defaultFrom)
  ((fun w => ⟨w, none, none, op.kind⟩) <$> op.execute scope b).handle
    (fun e => .ofExcept (i.recovered scope.world e op.kind))

def runFetch (i : Runner σ) (scope : Scope σ) (op : Operation σ) (b : Arguments) (e : Event) :
    LedgerM σ RunError Outcome :=
  let traced (v : Value) : Outcome :=
    ⟨scope.world.traced (e.line ++ " => " ++ v.display) none, some v, none, .fetcher⟩
  (traced <$> op.fetch scope b).handle
    (fun err => .ofExcept (i.recovered scope.world err .fetcher))

def runValueLine (i : Runner σ) (scope : Scope σ) (e : Event) (name : String)
    (rest : List Event) (unmatched : Option NoMatch) : LedgerM σ RunError Outcome :=
  match i.vocabulary.valueFamily? name, unmatched with
  | some f, _ => do
    let merged (n : NoMatch) : RunError := .noMatch ((unmatched.map (·.merge n)).getD n)
    let (op, b) ← (f.select scope rest).restate merged
    i.runFetch scope op b e
  | none, some n => throw (.noMatch n)
  | none, none => throw (.unknownFamily name)

def runPlain (i : Runner σ) (scope : Scope σ) (e : Event) (name : String)
    (rest : List Event) : LedgerM σ RunError Outcome :=
  match i.vocabulary.commandFamily? name with
  | none => i.runValueLine scope e name rest none
  | some f => fun s =>
    match f.select scope rest s with
    | (.ok (op, b), s) => i.runChange scope op b s
    | (.error n, s) => i.runValueLine scope e name rest (some n) s

def senderOf (scope : Scope σ) (who : Event) : LedgerM σ RunError String := do
  let v ← (Shape.address.read scope who).restate (fun _ => RunError.missingSender who.text)
  match v.address? with
  | some a => return a
  | none => throw (.missingSender who.text)

def amountOf (scope : Scope σ) (amount : Event) : LedgerM σ RunError (Option String) := do
  let v ← (Shape.number.read scope amount).restate (fun e => RunError.handler (.argument e))
  return v.number?.map Number.plainText

def isForm (name word : String) : Bool := Text.sameWord name word

def hasValueWord : List Event → Bool
  | token :: _ => verbMatches "Value" token
  | [] => false

theorem size_command_lt (e : Event) (before command : List Event)
    (h : e.unwrapped.tokens = before ++ command) (hb : 2 ≤ before.length) :
    (Event.list command).size < e.size := by
  have hsize := e.size_unwrapped_le
  cases hu : e.unwrapped with
  | atom s =>
    rw [hu] at h
    have hl := congrArg List.length h
    simp only [Event.tokens, List.length_append, List.length_singleton] at hl
    omega
  | list items =>
    rw [hu] at h hsize
    simp only [Event.tokens] at h
    subst h
    obtain _ | ⟨first, _ | ⟨second, rest⟩⟩ := before
    · simp at hb
    · simp at hb
    have h1 := first.size_pos
    have h2 := second.size_pos
    have h3 := Event.sizeAll_drop_le rest.length (rest ++ command)
    simp only [List.drop_left, List.cons_append, Event.size, Event.sizeAll] at *
    omega

/-- Runs the command that an event says. -/
def route (i : Runner σ) (w : World) (lastFailure : Option Failure) (e : Event) :
    LedgerM σ RunError Outcome :=
  let scope := i.vocabulary.scope w lastFailure
  match h : e.unwrapped.tokens with
  | .atom name :: rest =>
    if isForm name "From" then
      match rest, h with
      | who :: part :: parts, h =>
        have := size_command_lt e [.atom name, who] (part :: parts) h (Nat.le_refl _)
        do
          let sender ← senderOf scope who
          let inner := w.withTxOptions ⟨some sender, w.txOptions.value⟩
          return (← i.route inner lastFailure (.list (part :: parts))).leave w inner
      | rest, _ => throw (.noMatch (fromUsage rest))
    else if isForm name "Trx" && hasValueWord rest then
      match rest, h with
      | word :: amount :: part :: parts, h =>
        have := size_command_lt e [.atom name, word, amount] (part :: parts) h (by simp)
        do
          let value ← amountOf scope amount
          let inner := w.withTxOptions ⟨w.txOptions.sender, value⟩
          return (← i.route inner lastFailure (.list (part :: parts))).leave w inner
      | rest, _ => throw (.noMatch (trxUsage (rest.drop 1)))
    else i.runPlain scope e.unwrapped name rest
  | _ => throw (.unknownFamily e.unwrapped.line)
termination_by e.size

end Runner

end LedgerScript
