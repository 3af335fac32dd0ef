import LedgerScript.Syntax.Event
import LedgerScript.Text.Blank

/-!
# The written form of events

An atom stands as it is when it is a bare word, and in quotes otherwise. A list stands
in parentheses, its items parted by one space; a line leaves the outer
parentheses out.
-/

set_option autoImplicit false

namespace LedgerScript.Event

def isDelimiter (c : Char) : Bool :=
  Text.isBlank c || c == '(' || c == ')' || c == '"'

def needsQuotes (cs : List Char) : Bool :=
  cs.isEmpty || cs.any (fun c => isDelimiter c || c == '\\')

def escaped : List Char → List Char
  | [] => []
  | c :: rest =>
    if c = '"' || c = '\\' then '\\' :: c :: escaped rest else c :: escaped rest

def atomChars (cs : List Char) : List Char :=
  if needsQuotes cs then '"' :: escaped cs ++ ['"'] else cs

mutual
def chars : Event → List Char
  | .atom s => atomChars s.toList
  | .list items => '(' :: charsAll items ++ [')']

def charsAll : List Event → List Char
  | [] => []
  | [e] => chars e
  | e :: f :: rest => chars e ++ ' ' :: charsAll (f :: rest)
end

/-- The written form of an event, which reads back as the event. -/
def text (e : Event) : String := String.ofList e.chars

def line (e : Event) : String := String.ofList (charsAll e.tokens)

end LedgerScript.Event
