import LedgerScript.Config.Basic
import LedgerScript.Config.Toml

/-!
# Configurations from text

Every key may be left out and none may be given twice. The flags are one table: a header, an inline
table, or dotted keys, but not two of these. A date or time in place of the inline table is a
table with its written form under a name of its own.
-/

set_option autoImplicit false

namespace LedgerScript.Config

def dateTimeName : String := "$__toml_private_datetime"

def tableEntries? : Toml.Value → Option (List (List String × String))
  | .table entries => some entries
  | .dateTime d => some [([dateTimeName], d.text)]
  | _ => none

/-- How the table of flags came about, which decides how it may grow. -/
inductive FlagTable where
  | absent
  | dotted
  | closed
  deriving DecidableEq

structure Draft where
  config : Config
  given : List String
  flagTable : FlagTable
  inFlags : Bool

namespace Draft

def start : Draft := ⟨.standard, [], .absent, false⟩

def addFlag (d : Draft) (name value : String) : Option Draft :=
  if (d.config.flags.get? name).isSome then none
  else some { d with config := { d.config with flags := d.config.flags.insert name value } }

def addFlags (d : Draft) (entries : List (List String × String)) : Option Draft :=
  entries.foldlM (fun d e =>
    match e with
    | ([name], value) => d.addFlag name value
    | _ => none) d

def setKey (c : Config) : String → Toml.Value → Option Config
  | "network", .text s => some { c with network := s }
  | "dry_run", .truth b => some { c with dryRun := b }
  | "default_from", .text s => some { c with defaultFrom := s }
  | "accounts", .texts names => some { c with accounts := names }
  | "halt_on_handler_error", .truth b => some { c with haltOnFailure := b }
  | _, _ => none

def assign (d : Draft) (path : List String) (value : Toml.Value) : Option Draft :=
  match d.inFlags, path, value with
  | true, [name], .text s => d.addFlag name s
  | true, _, _ => none
  | false, ["flags"], value =>
    if d.flagTable = .absent then
      (tableEntries? value).bind { d with flagTable := .closed }.addFlags
    else none
  | false, ["flags", name], .text s =>
    if d.flagTable = .closed then none else { d with flagTable := .dotted }.addFlag name s
  | false, [name], value =>
    if name ∈ d.given then none
    else do
      let c ← setKey d.config name value
      return { d with config := c, given := name :: d.given }
  | false, _, _ => none

def step (d : Draft) : Toml.Statement → Option Draft
  | .header ["flags"] =>
    if d.flagTable = .absent then some { d with flagTable := .closed, inFlags := true } else none
  | .header _ => none
  | .assign path value => d.assign path value

end Draft

/-- The configuration that a text gives, if it gives one. -/
def ofText? (text : String) : Option Config := do
  let statements ← Toml.statements? text
  let d ← statements.foldlM Draft.step .start
  return d.config

end LedgerScript.Config
