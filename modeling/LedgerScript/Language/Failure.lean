import LedgerScript.Ledger.Basic
import LedgerScript.Quantity.Number
import LedgerScript.Text.Lines

/-!
# What can go wrong on a line

From the inside out: a token that cannot be read as the argument that is wanted, an operation
that refuses the input, a family all of whose operations do, and an operation that fails
while it runs.
-/

set_option autoImplicit false

namespace LedgerScript

inductive ArgumentError where
  | expected (kind token : String)
  | numeric (cause : NumericError)
  | unknownAlias (name : String)
  | evaluation (event complaint : String)
  deriving DecidableEq

def ArgumentError.message : ArgumentError → String
  | .expected kind token => "expected " ++ kind ++ ", got `" ++ token ++ "`"
  | .numeric cause => cause.message
  | .unknownAlias name => "unknown alias `" ++ name ++ "`"
  | .evaluation event complaint => "could not evaluate `" ++ event ++ "`: " ++ complaint

/-- Why an operation does not take an input. -/
inductive Refusal where
  | verb (verb : String) (position : Nat)
  | missing (param : String)
  | argument (param : String) (cause : ArgumentError)
  | notAList (param token : String)
  | extra (tokens : String)
  deriving DecidableEq

def Refusal.message : Refusal → String
  | .verb word position => "expected `" ++ word ++ "` at position " ++ toString position
  | .missing param => "missing argument `" ++ param ++ "`"
  | .argument param cause => "argument `" ++ param ++ "`: " ++ cause.message
  | .notAList param token =>
    "argument `" ++ param ++ "` expects a parenthesized list, got `" ++ token ++ "`"
  | .extra tokens => "unexpected trailing input: " ++ tokens

structure Attempt where
  usage : String
  refusal : Refusal
  deriving DecidableEq

structure Guide where
  usage : String
  doc : String
  deriving DecidableEq

/-- No operation of a family took the input: every attempt, and a guide to the family. -/
structure NoMatch where
  family : String
  input : String
  attempts : List Attempt
  guides : List Guide
  deriving DecidableEq

def Attempt.message (a : Attempt) : String :=
  "\n  tried `" ++ a.usage ++ "`: " ++ a.refusal.message

def Guide.docLine (line : String) : String := if line.isEmpty then "\n" else "\n      " ++ line

def Guide.message (g : Guide) : String :=
  "\n\n  " ++ g.usage ++ String.join ((Text.lines g.doc).map docLine)

namespace NoMatch

def familyName (n : NoMatch) : String := if n.family.isEmpty then "value expressions" else n.family

def message (n : NoMatch) : String :=
  "no match for `" ++ n.input ++ "` in " ++ n.familyName ++
    String.join (n.attempts.map Attempt.message) ++
    (if n.guides.isEmpty then "" else "\n\navailable in " ++ n.familyName ++ ":") ++
    String.join (n.guides.map Guide.message)

def merge (n m : NoMatch) : NoMatch :=
  { n with attempts := n.attempts ++ m.attempts, guides := n.guides ++ m.guides }

end NoMatch

inductive Failure where
  /-- The ledger rejected a call of a method; the record of the call, if there is one. -/
  | reverted (method reason : String) (invocation : Option Invocation)
  | ledger (cause : LedgerError)
  | argument (cause : ArgumentError)
  | numeric (cause : NumericError)
  | unknownAlias (name : String)
  | assertion (complaint : String)
  | noMatch (cause : NoMatch)
  | other (complaint : String)

namespace Failure

def message : Failure → String
  | .reverted method reason _ => method ++ " reverted: " ++ reason
  | .ledger cause => cause.message
  | .argument cause => cause.message
  | .numeric cause => cause.message
  | .unknownAlias name => "unknown alias `" ++ name ++ "`"
  | .assertion complaint => "assertion failed: " ++ complaint
  | .noMatch cause => cause.message
  | .other complaint => complaint

/-- Fatal errors end a run; the others are left for later lines to inspect. -/
def isFatal : Failure → Bool
  | .assertion _ | .noMatch _ | .argument _ => true
  | _ => false

def isRevert : Failure → Bool
  | .reverted _ _ _ => true
  | _ => false

/-- What an assertion on the failure of a command compares with: the revert reason, or the
text of the error. -/
def reason : Failure → String
  | .reverted _ reason _ => reason
  | .ledger cause => cause.revertReason?.getD cause.message
  | e => e.message

end Failure

structure DeclarationError where
  family : String
  usage : String
  complaint : String
  deriving DecidableEq

def DeclarationError.message (e : DeclarationError) : String :=
  "invalid declaration `" ++ e.usage ++ "` in " ++ e.family ++ ": " ++ e.complaint

namespace LedgerM

variable {σ ε ε' α : Type}

def restate (x : LedgerM σ ε α) (f : ε → ε') : LedgerM σ ε' α := x.adapt f

/-- Goes on with `f` on the ledger that a failed action leaves. -/
def handle (x : LedgerM σ ε α) (f : ε → LedgerM σ ε' α) : LedgerM σ ε' α :=
  fun s =>
    match x s with
    | (.ok a, s) => (.ok a, s)
    | (.error e, s) => f e s

def ofExcept (x : Except ε α) : LedgerM σ ε α := fun s => (x, s)

end LedgerM

end LedgerScript
