import LedgerScript.Syntax.Reading
import LedgerScript.Text.Lines

/-!
# Scripts

A script has one event on each line that is neither blank nor a comment. Its
lines are numbered from one, the skipped ones included.
-/

set_option autoImplicit false

namespace LedgerScript

structure ScriptLine where
  line : Nat
  /-- The line as written, without the blanks around it. -/
  source : String
  event : Event

namespace Script

/-- A line with nothing to run: blank, or with two dashes in front. -/
def isSkipped (line : List Char) : Bool :=
  let shown := Text.trim line
  shown.isEmpty || ['-', '-'].isPrefixOf shown

def isSkippedLine (line : String) : Bool := isSkipped line.toList

def readFrom (n : Nat) : List String → Except SyntaxError (List ScriptLine)
  | [] => .ok []
  | raw :: rest =>
    if isSkippedLine raw then readFrom (n + 1) rest
    else do
      let event ← Event.ofLineAt raw n
      return ⟨n, Text.trimmed raw, event⟩ :: (← readFrom (n + 1) rest)

def read (text : String) : Except SyntaxError (List ScriptLine) := readFrom 1 (Text.lines text)

def sourceAt (text : String) (n : Nat) : String :=
  Text.trimmed (((Text.lines text)[n - 1]?).getD "")

end Script

end LedgerScript
