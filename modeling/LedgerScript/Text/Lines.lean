/-!
# Lines of a text

A newline ends a line, one carriage return before that newline belongs to the
ending, and a text that ends in a newline has no further line. The pieces of a
text are what stands between its newlines, with nothing dropped.
-/

set_option autoImplicit false

namespace LedgerScript.Text

def pieces : List Char → List (List Char)
  | [] => [[]]
  | c :: rest =>
    if c = '\n' then [] :: pieces rest
    else
      match pieces rest with
      | [] => [[c]]
      | p :: ps => (c :: p) :: ps

theorem pieces_ne_nil (cs : List Char) : pieces cs ≠ [] := by
  cases cs with
  | nil => simp [pieces]
  | cons c rest =>
    simp only [pieces]
    split
    · simp
    · split <;> simp

/-- A line's text without the carriage return of its ending. -/
def withoutReturn (line : List Char) : List Char :=
  if line.getLast? = some '\r' then line.dropLast else line

def endedLines : List (List Char) → List (List Char)
  | [] => []
  | [last] => if last.isEmpty then [] else [last]
  | p :: q :: rest => withoutReturn p :: endedLines (q :: rest)

def lineChars (cs : List Char) : List (List Char) := endedLines (pieces cs)

def lines (s : String) : List String := (lineChars s.toList).map String.ofList

end LedgerScript.Text
