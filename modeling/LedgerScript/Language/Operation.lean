import LedgerScript.Language.Arguments
import LedgerScript.Text.Doc

/-!
# Operations

An operation is written as a verb at a fixed position among its arguments. It takes an input when
the verb stands there and its parameters take all the other tokens; a fallback offers
its parameters the whole input and disregards what they leave.
-/

set_option autoImplicit false

namespace LedgerScript

/-- What an operation produces: a value, or a world with or without a need for a sender. -/
inductive Kind where
  | fetcher
  | command
  | view
  deriving DecidableEq

abbrev Fetch (σ : Type) := Scope σ → Arguments → LedgerM σ Failure Value

abbrev Change (σ : Type) := Scope σ → Arguments → LedgerM σ Failure World

inductive Handler (σ : Type) where
  | fetcher (run : Fetch σ)
  | command (run : Change σ)
  | view (run : Change σ)

structure Operation (σ : Type) where
  verb : List String
  params : List (Param σ)
  handler : Handler σ
  doc : String := ""
  /-- How many tokens stand before the verb. -/
  position : Nat := 0
  fallback : Bool := false

/-- A verb is matched in any ASCII letter case and without the blanks around it. -/
def verbMatches (verb : String) : Event → Bool
  | .atom s => Text.sameWord (Text.trimmed s) (Text.trimmed verb)
  | .list _ => false

namespace Operation

variable {σ : Type}

def fetcher (verb : String) (params : List (Param σ)) (run : Fetch σ) (doc : String) :
    Operation σ :=
  { verb := Text.words verb, params, handler := .fetcher run, doc }

def command (verb : String) (params : List (Param σ)) (run : Change σ) (doc : String) :
    Operation σ :=
  { verb := Text.words verb, params, handler := .command run, doc }

def view (verb : String) (params : List (Param σ)) (run : Change σ) (doc : String) :
    Operation σ :=
  { verb := Text.words verb, params, handler := .view run, doc }

def kind (op : Operation σ) : Kind :=
  match op.handler with
  | .fetcher _ => .fetcher
  | .command _ => .command
  | .view _ => .view

def verbText (op : Operation σ) : String := " ".intercalate op.verb

def isFallback (op : Operation σ) : Bool := op.fallback || op.params.any Param.catchall

def cleanedDoc (op : Operation σ) : String := Text.cleanDoc op.doc

/-- The usages of the explicit parameters, with the verb in its place. -/
def usage (op : Operation σ) : String :=
  let parts := op.params.filterMap Param.usage?
  let shown :=
    if op.verb.isEmpty then parts
    else parts.take op.position ++ op.verbText :: parts.drop op.position
  " ".intercalate shown

def hasVerb (op : Operation σ) (tokens : List Event) : Bool :=
  op.position + op.verb.length ≤ tokens.length &&
    (op.verb.zip (tokens.drop op.position)).all (fun (word, token) => verbMatches word token)

def arguments (op : Operation σ) (tokens : List Event) : Except Refusal (List Event) :=
  if op.hasVerb tokens then
    .ok (tokens.take op.position ++ tokens.drop (op.position + op.verb.length))
  else .error (.verb op.verbText op.position)

def bind (op : Operation σ) (scope : Scope σ) (tokens : List Event) :
    LedgerM σ Refusal Arguments := do
  Arguments.bind scope op.params (← op.arguments tokens) false

def bindFallback (op : Operation σ) (scope : Scope σ) (tokens : List Event) :
    LedgerM σ Refusal Arguments :=
  Arguments.bind scope op.params tokens true

def fetch (op : Operation σ) (scope : Scope σ) (b : Arguments) : LedgerM σ Failure Value :=
  match op.handler with
  | .fetcher run => run scope b
  | _ => throw (.other ("`" ++ op.usage ++ "` is not a value expression"))

def execute (op : Operation σ) (scope : Scope σ) (b : Arguments) : LedgerM σ Failure World :=
  match op.handler with
  | .command run => run scope b
  | .view run => run scope b
  | .fetcher _ => throw (.other ("`" ++ op.usage ++ "` does not produce a World"))

end Operation

end LedgerScript
