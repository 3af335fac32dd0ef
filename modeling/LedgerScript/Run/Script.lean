import LedgerScript.Run.Line
import LedgerScript.Syntax.Script

/-!
# Running a script

The lines of a script run in order, each in the world that the one before it left, until one
fails. Nothing runs if any line is malformed.
-/

set_option autoImplicit false

namespace LedgerScript

/-- What a line leaves to the next one: the world, and the failure of the latest command. -/
structure Session where
  world : World
  lastFailure : Option Failure

def Session.start (w : World) : Session := ⟨w, none⟩

def Session.after (s : Session) (o : Outcome) : Session :=
  ⟨o.world, if o.kind = .command then o.failure else s.lastFailure⟩

structure LineReport where
  line : Nat
  source : String
  kind : Kind
  value : Option Value
  failure : Option Failure

structure Report where
  world : World
  lines : List LineReport

def Report.failedLines (r : Report) : List LineReport := r.lines.filter (·.failure.isSome)

structure ScriptError where
  line : Nat
  source : String
  cause : RunError

def ScriptError.message (e : ScriptError) : String :=
  "line " ++ toString e.line ++ ": `" ++ e.source ++ "`\n" ++ e.cause.message

namespace Runner

variable {σ : Type}

/-- The world in which a script starts: the configured settings, and the ledger's accounts
under the configured names, as far as both go. -/
def start [Ledger σ] (i : Runner σ) : LedgerM σ RunError World := do
  let addresses ← (Ledger.accounts : LedgerM σ LedgerError (List String)).restate
    (fun e => RunError.handler (.ledger e))
  return (i.config.accounts.zip addresses).foldl (fun w (name, a) => w.withAccount name a)
    (.start i.config.settings)

def process (i : Runner σ) (s : Session) (e : Event) : LedgerM σ RunError Outcome :=
  i.route s.world s.lastFailure e

def processLine (i : Runner σ) (s : Session) (line : String) : LedgerM σ RunError Outcome := do
  let e ← LedgerM.restate (.ofExcept (Event.ofLine line)) RunError.malformed
  i.process s e

def runLines (i : Runner σ) (s : Session) : List ScriptLine → LedgerM σ ScriptError Report
  | [] => return ⟨s.world, []⟩
  | l :: rest => do
    let o ← (i.process s l.event).restate (⟨l.line, l.source, ·⟩)
    let r ← i.runLines (s.after o) rest
    return { r with lines := ⟨l.line, l.source, o.kind, o.value, o.failure⟩ :: r.lines }

def runScript (i : Runner σ) (w : World) (text : String) : LedgerM σ ScriptError Report :=
  match Script.read text with
  | .error e => throw ⟨e.place.line, Script.sourceAt text e.place.line, .malformed e⟩
  | .ok lines => i.runLines (.start w) lines

def runFromStart [Ledger σ] (i : Runner σ) (text : String) : LedgerM σ ScriptError Report := do
  let w ← i.start.restate (⟨0, "", ·⟩)
  i.runScript w text

end Runner

end LedgerScript
