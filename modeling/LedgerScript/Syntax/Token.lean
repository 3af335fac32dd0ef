import LedgerScript.Syntax.Printing

/-!
# Tokens of a line

White space, parentheses and quotes end a word. A quoted literal may hold any
character; a backslash before a quote or a backslash stands for that character
alone, and every other backslash stands for itself.
-/

set_option autoImplicit false

namespace LedgerScript

inductive Token where
  | word (text : String)
  | quoted (text : String)
  | opening
  | closing
  deriving DecidableEq, Inhabited

/-- A line of a script and a character in it, both counted from one. -/
structure Place where
  line : Nat
  column : Nat
  deriving DecidableEq, Inhabited

structure Lexeme where
  token : Token
  place : Place
  deriving DecidableEq, Inhabited

inductive SyntaxFault where
  | unterminatedQuote
  | unbalancedClosing
  | unclosedOpening
  deriving DecidableEq

structure SyntaxError where
  place : Place
  fault : SyntaxFault
  deriving DecidableEq

def SyntaxFault.message : SyntaxFault → String
  | .unterminatedQuote => "unterminated quoted literal"
  | .unbalancedClosing => "unbalanced ')'"
  | .unclosedOpening => "unclosed '('"

namespace SyntaxError

def message (e : SyntaxError) : String :=
  "parse error at line " ++ toString e.place.line ++ ", column " ++ toString e.place.column ++
    ": " ++ e.fault.message

def atLine (e : SyntaxError) (n : Nat) : SyntaxError :=
  { e with place := { e.place with line := n } }

end SyntaxError

namespace Token

def unescaped (c : Char) : List Char :=
  if c = '"' || c = '\\' then [c] else ['\\', c]

/-- Reads a quoted literal after its opening quote: the text it stands for, the
number of characters up to and with the closing quote, and what follows them. -/
def quotedBody : List Char → Option (List Char × Nat × List Char)
  | [] => none
  | '"' :: rest => some ([], 1, rest)
  | '\\' :: c :: rest =>
    (quotedBody rest).map (fun (body, n, after) => (unescaped c ++ body, n + 2, after))
  | c :: rest => (quotedBody rest).map (fun (body, n, after) => (c :: body, n + 1, after))

theorem length_of_quotedBody (cs body after : List Char) (n : Nat)
    (h : quotedBody cs = some (body, n, after)) : cs.length = n + after.length := by
  fun_induction quotedBody cs generalizing body n after with
  | case1 => simp at h
  | case2 rest =>
    simp only [Option.some.injEq, Prod.mk.injEq] at h
    obtain ⟨-, rfl, rfl⟩ := h
    simp only [List.length_cons]
    omega
  | case3 c rest ih =>
    obtain ⟨⟨b, m, a⟩, hb, he⟩ := Option.map_eq_some_iff.mp h
    simp only [Prod.mk.injEq] at he
    obtain ⟨-, rfl, rfl⟩ := he
    have := ih b a m hb
    simp only [List.length_cons]
    omega
  | case4 c rest _ _ ih =>
    obtain ⟨⟨b, m, a⟩, hb, he⟩ := Option.map_eq_some_iff.mp h
    simp only [Prod.mk.injEq] at he
    obtain ⟨-, rfl, rfl⟩ := he
    have := ih b a m hb
    simp only [List.length_cons]
    omega

def isWordChar (c : Char) : Bool := !Event.isDelimiter c

/-- The tokens of `cs`, whose first character stands at `place`. -/
def scanFrom (place : Place) (cs : List Char) : Except SyntaxError (List Lexeme) :=
  match cs with
  | [] => .ok []
  | c :: rest =>
    let step (n : Nat) : Place := { place with column := place.column + n }
    if Text.isBlank c then scanFrom (step 1) rest
    else if c = '(' then do
      return ⟨.opening, place⟩ :: (← scanFrom (step 1) rest)
    else if c = ')' then do
      return ⟨.closing, place⟩ :: (← scanFrom (step 1) rest)
    else if c = '"' then
      match h : quotedBody rest with
      | none => .error ⟨place, .unterminatedQuote⟩
      | some (body, n, after) => do
        return ⟨.quoted (String.ofList body), place⟩ :: (← scanFrom (step (n + 1)) after)
    else do
      let word := c :: rest.takeWhile isWordChar
      return ⟨.word (String.ofList word), place⟩ ::
        (← scanFrom (step word.length) (rest.dropWhile isWordChar))
termination_by cs.length
decreasing_by
  all_goals simp only [List.length_cons]
  · omega
  · omega
  · omega
  · have := length_of_quotedBody rest body after n h
    omega
  · have := (List.dropWhile_sublist isWordChar (l := rest)).length_le
    omega

/-! What the scanner does at a character of each sort, in front of any text. -/

theorem scanFrom_blank (place : Place) (c : Char) (rest : List Char)
    (h : Text.isBlank c = true) :
    scanFrom place (c :: rest) = scanFrom { place with column := place.column + 1 } rest := by
  rw [scanFrom.eq_def]
  exact if_pos h

theorem scanFrom_opening (place : Place) (rest : List Char) :
    scanFrom place ('(' :: rest) =
      (⟨.opening, place⟩ :: ·) <$> scanFrom { place with column := place.column + 1 } rest := by
  rw [scanFrom.eq_def]
  dsimp only
  rw [if_neg (by decide), if_pos rfl]
  rfl

theorem scanFrom_closing (place : Place) (rest : List Char) :
    scanFrom place (')' :: rest) =
      (⟨.closing, place⟩ :: ·) <$> scanFrom { place with column := place.column + 1 } rest := by
  rw [scanFrom.eq_def]
  dsimp only
  rw [if_neg (by decide), if_neg (by decide), if_pos rfl]
  rfl

theorem scanFrom_quoted (place : Place) (rest body after : List Char) (n : Nat)
    (h : quotedBody rest = some (body, n, after)) :
    scanFrom place ('"' :: rest) =
      (⟨.quoted (String.ofList body), place⟩ :: ·) <$>
        scanFrom { place with column := place.column + (n + 1) } after := by
  rw [scanFrom.eq_def]
  dsimp only
  rw [if_neg (by decide), if_neg (by decide), if_neg (by decide), if_pos rfl]
  split
  · next hnone => rw [h] at hnone; cases hnone
  · next body' n' after' hsome =>
    rw [h] at hsome
    cases hsome
    rfl

theorem scanFrom_word (place : Place) (c : Char) (rest : List Char)
    (h : isWordChar c = true) :
    scanFrom place (c :: rest) =
      (⟨.word (String.ofList (c :: rest.takeWhile isWordChar)), place⟩ :: ·) <$>
        scanFrom { place with column := place.column + (c :: rest.takeWhile isWordChar).length }
          (rest.dropWhile isWordChar) := by
  simp only [isWordChar, Event.isDelimiter, Bool.not_eq_true', Bool.or_eq_false_iff,
    beq_eq_false_iff_ne] at h
  obtain ⟨⟨⟨hb, ho⟩, hc⟩, hq⟩ := h
  rw [scanFrom.eq_def]
  dsimp only
  rw [if_neg (by simp [hb]), if_neg ho, if_neg hc, if_neg hq]
  rfl

def scan (source : String) (line : Nat) : Except SyntaxError (List Lexeme) :=
  scanFrom ⟨line, 1⟩ source.toList

end Token

end LedgerScript
