import LedgerScript.Syntax.Token

/-!
# Events from tokens

Parentheses group the tokens of a line. The first closing parenthesis that has
nothing to close is at fault; if there is none, the last opening one that is
left open.
-/

set_option autoImplicit false

namespace LedgerScript.Event

/-- A group whose closing parenthesis is still to come: where it opened, and the items
that stand before it, last one first. -/
structure Group where
  opening : Place
  before : List Event

def build (groups : List Group) (items : List Event) :
    List Lexeme → Except SyntaxError (List Event)
  | [] =>
    match groups with
    | [] => .ok items.reverse
    | g :: _ => .error ⟨g.opening, .unclosedOpening⟩
  | ⟨.word s, _⟩ :: rest => build groups (.atom s :: items) rest
  | ⟨.quoted s, _⟩ :: rest => build groups (.atom s :: items) rest
  | ⟨.opening, place⟩ :: rest => build (⟨place, items⟩ :: groups) [] rest
  | ⟨.closing, place⟩ :: rest =>
    match groups with
    | [] => .error ⟨place, .unbalancedClosing⟩
    | g :: outer => build outer (.list items.reverse :: g.before) rest

def ofLexemes (lexemes : List Lexeme) : Except SyntaxError Event :=
  (build [] [] lexemes).map .list

/-- The event of a text that stands on the given line: the list of its items, even if
there is but one. -/
def ofLineAt (source : String) (line : Nat) : Except SyntaxError Event := do
  ofLexemes (← Token.scan source line)

def ofLine (source : String) : Except SyntaxError Event := ofLineAt source 1

end LedgerScript.Event
