import LedgerScript.Text.Blank
import LedgerScript.Text.Lines

/-!
# Documentation text

A documentation text may be written indented, between blank lines, as it
stands in a source. Its clean form drops the indentation that its non-blank lines
share, the blanks that end each line, and the blank lines around it.
Indentation is counted in characters, but a line is cut at a byte; that a
character begins there, or the line ends, is proved with the cut.
-/

set_option autoImplicit false

namespace LedgerScript.Text

def indentation (line : List Char) : Nat := (line.takeWhile isBlank).length

def isBlankLine (line : List Char) : Bool := (trim line).isEmpty

def commonIndentation (lines : List (List Char)) : Nat :=
  (((lines.filter (!isBlankLine ·)).map indentation).min?).getD 0

/-- The characters of a text whose first byte has number `start`, each with the number of its own
first byte. -/
def located (start : Nat) : List Char → List (Nat × Char)
  | [] => []
  | c :: rest => (start, c) :: located (start + c.utf8Size) rest

theorem takeWhile_located (p : Char → Bool) (start : Nat) (cs : List Char) :
    (located start cs).takeWhile (p ·.2) = located start (cs.takeWhile p) := by
  induction cs generalizing start with
  | nil => rfl
  | cons c rest ih =>
    rw [located, List.takeWhile_cons, List.takeWhile_cons, ih]
    cases p c <;> rfl

theorem take_located (n start : Nat) (cs : List Char) :
    (located start cs).take n = located start (cs.take n) := by
  induction cs generalizing n start with
  | nil => rw [located, List.take_nil, List.take_nil, located]
  | cons c rest ih =>
    cases n with
    | zero => rfl
    | succ n => rw [located, List.take_succ_cons, List.take_succ_cons, located, ih]

theorem end_located (start : Nat) (cs : List Char) :
    (located start cs).getLast?.elim start (fun last => last.1 + last.2.utf8Size) =
      start + (String.ofList cs).utf8ByteSize := by
  induction cs generalizing start with
  | nil => rfl
  | cons c rest ih =>
    have hrest := ih (start + c.utf8Size)
    rw [located, List.getLast?_cons, Option.elim_some, String.ofList_cons,
      String.utf8ByteSize_append, String.utf8ByteSize_singleton, ← Nat.add_assoc, ← hrest]
    cases (located (start + c.utf8Size) rest).getLast? <;> rfl

/-- The byte at which a line is cut so that its first `n` characters go, as far as these are
blank. -/
def cutByte (n : Nat) (line : List Char) : Nat :=
  (((located 0 line).takeWhile (isBlank ·.2)).take n).getLast?.elim 0
    fun last => last.1 + last.2.utf8Size

theorem cutByte_eq (n : Nat) (line : List Char) :
    cutByte n line = (String.ofList (line.take (min n (indentation line)))).utf8ByteSize := by
  rw [cutByte, takeWhile_located, take_located, end_located, Nat.zero_add, indentation,
    ← List.take_take, ← List.prefix_iff_eq_take.mp (List.takeWhile_prefix isBlank)]

theorem isValid_cutByte (n : Nat) (line : List Char) :
    (⟨cutByte n line⟩ : String.Pos.Raw).IsValid (String.ofList line) :=
  String.Pos.Raw.isValid_ofList.mpr ⟨_, cutByte_eq n line⟩

def dedent (n : Nat) (line : List Char) : List Char :=
  let text := String.ofList line
  (text.sliceFrom (text.pos ⟨cutByte n line⟩ (isValid_cutByte n line))).copy.toList

theorem dedent_eq_drop (n : Nat) (line : List Char) :
    dedent n line = line.drop (min n (indentation line)) := by
  have splits : String.Pos.Splits
      ((String.ofList line).pos ⟨cutByte n line⟩ (isValid_cutByte n line))
      (String.ofList (line.take (min n (indentation line))))
      (String.ofList (line.drop (min n (indentation line)))) := by
    refine ⟨?_, ?_⟩
    · rw [← String.ofList_append, List.take_append_drop]
    · rw [String.offset_pos, cutByte_eq]
      rfl
  rw [dedent, splits.copy_sliceFrom_eq, String.toList_ofList]

def dropOuterEmpty (lines : List (List Char)) : List (List Char) :=
  (((lines.dropWhile List.isEmpty).reverse).dropWhile List.isEmpty).reverse

def cleanLine (n : Nat) (line : List Char) : List Char := trimEnd (dedent n line)

def cleanLines (lines : List (List Char)) : List (List Char) :=
  dropOuterEmpty (lines.map (cleanLine (commonIndentation lines)))

def cleanDoc (doc : String) : String :=
  String.ofList (['\n'].intercalate (cleanLines (lineChars doc.toList)))

end LedgerScript.Text
