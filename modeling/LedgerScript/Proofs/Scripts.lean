import LedgerScript.Proofs.Action
import LedgerScript.Proofs.Grouping
import LedgerScript.Proofs.Layout

/-!
# Lines that make a script

A line is executable if there is something to it but blanks and it is no comment. A text is a
script just if each of its executable lines can be read, and then the script has these lines and no
others, in their order, under their numbers. The blanks around a line make no difference to what it
says, but they count for the column of a fault. Printed events make lines that are neither cut nor
trimmed nor skipped, unless a newline is in them or two bare dashes come first.
-/

set_option autoImplicit false

namespace LedgerScript

open Text (isBlank)

namespace Text

/-- Line `n` of a text, counted from one: its piece between two newlines, but for the carriage
return before the newline that ends it. -/
def LineAt (text : String) (n : Nat) (line : String) : Prop :=
  let ps := text.toList.splitOn '\n'
  ∃ k piece, n = k + 1 ∧ ps[k]? = some piece ∧
    line = String.ofList (if n < ps.length then withoutReturn piece else piece)

theorem pieces_eq_splitOn (cs : List Char) : pieces cs = cs.splitOn '\n' := by
  induction cs with
  | nil => rfl
  | cons c rest ih =>
    obtain ⟨p, ps, hrest⟩ := List.exists_cons_of_ne_nil (pieces_ne_nil rest)
    rw [pieces, List.splitOn_cons_eq_if_modifyHead, ← ih, hrest]
    simp

theorem lineAt_iff {text : String} {front : List (List Char)} {last : List Char}
    (split : text.toList.splitOn '\n' = front ++ [last]) {n : Nat} {line : String} :
    LineAt text n line ↔ ∃ k, n = k + 1 ∧
      (front.map (fun p => String.ofList (withoutReturn p)) ++ [String.ofList last])[k]? =
        some line := by
  simp only [LineAt, split]
  refine exists_congr fun k => ?_
  rcases Nat.lt_trichotomy k front.length with hlt | rfl | hgt
  · have hn : k + 1 < front.length + 1 := by omega
    simp only [List.getElem?_append_left, List.length_map, hlt, List.getElem?_map]
    constructor
    · rintro ⟨piece, rfl, hpiece, rfl⟩
      simp [hpiece, hn]
    · rintro ⟨rfl, hline⟩
      obtain ⟨piece, hpiece, rfl⟩ := Option.map_eq_some_iff.mp hline
      exact ⟨piece, rfl, hpiece, by simp [hn]⟩
  · simp +contextual [eq_comm]
  · simp [List.getElem?_append_right, hgt.le, Nat.sub_ne_zero_of_lt hgt]

theorem exists_trim (cs : List Char) :
    ∃ front back, cs = front ++ (trim cs ++ back) ∧ (∀ c ∈ front, isBlank c = true) ∧
      ∀ c ∈ back, isBlank c = true := by
  refine ⟨cs.takeWhile isBlank, (trimStart cs).rtakeWhile isBlank, ?_, ?_, ?_⟩
  · have hback : trim cs ++ (trimStart cs).rtakeWhile isBlank = trimStart cs :=
      List.rdropWhile_append_rtakeWhile
    rw [hback]
    exact List.takeWhile_append_dropWhile.symm
  · exact fun c hc => List.mem_takeWhile_imp hc
  · exact fun c hc => List.mem_rtakeWhile_imp hc

structure Tight (cs : List Char) : Prop where
  filled : cs ≠ []
  front : ∀ c ∈ cs.head?, isBlank c = false
  back : ∀ c ∈ cs.getLast?, isBlank c = false

theorem Tight.trim_eq {cs : List Char} (tight : Tight cs) : trim cs = cs := by
  obtain ⟨c, rest, rfl⟩ := List.exists_cons_of_ne_nil tight.filled
  rw [trim, trimStart_cons_of_not_blank c rest (tight.front c rfl)]
  refine List.rdropWhile_eq_self_iff.mpr fun filled hlast => ?_
  rw [tight.back _ (List.getLast?_eq_some_getLast filled)] at hlast
  cases hlast

theorem tight_enclosed {c d : Char} (hc : isBlank c = false) (hd : isBlank d = false)
    (cs : List Char) : Tight (c :: cs ++ [d]) where
  filled := by simp
  front := by simp [hc]
  back := by
    rw [List.getLast?_concat]
    simp [hd]

end Text

namespace Token

theorem scanFrom_append_blanks {back : List Char} (blank : ∀ c ∈ back, isBlank c = true)
    (cs : List Char) (p : Place) : scanFrom p (cs ++ back) = scanFrom p cs := by
  induction back generalizing cs with
  | nil => rw [List.append_nil]
  | cons c back ih =>
    obtain ⟨hc, hback⟩ := List.forall_mem_cons.mp blank
    rw [List.append_cons, ih hback, scanFrom_append_blank hc]

end Token

namespace Event

theorem ofLexemes_of_tokens {ls ms : List Lexeme} {e : Event}
    (same : ms.map Lexeme.token = ls.map Lexeme.token) (h : ofLexemes ls = .ok e) :
    ofLexemes ms = .ok e := by
  have hmarks (ks : List Lexeme) : ks.map Lexeme.mark = (ks.map Lexeme.token).map Token.mark := by
    rw [List.map_map]
    rfl
  obtain ⟨items, rfl, hitems⟩ := ofLexemes_eq_ok_iff.mp h
  exact ofLexemes_eq_ok_iff.mpr ⟨items, rfl, by rw [hmarks, same, ← hmarks, hitems]⟩

theorem ofLexemes_moved {p : Place} {cs : List Char} {e : Event}
    (h : Token.scanFrom p cs >>= ofLexemes = .ok e) (q : Place) :
    Token.scanFrom q cs >>= ofLexemes = .ok e := by
  obtain ⟨ls, hscan, hls⟩ := exists_of_bind_eq_ok h
  obtain ⟨ms, moved, same⟩ := (Token.scanFrom_eq_ok_iff.mp hscan).moved q
  rw [moved.scanFrom_eq]
  exact ofLexemes_of_tokens same hls

theorem ofLine_trimmed {line : String} {e : Event} :
    ofLine (Text.trimmed line) = .ok e ↔ ofLine line = .ok e := by
  obtain ⟨front, back, hcs, hfront, hback⟩ := Text.exists_trim line.toList
  have hscan : Token.scan line 1 =
      Token.scanFrom (Place.right ⟨1, 1⟩ front.length) (Text.trim line.toList) := by
    conv => lhs; rw [Token.scan, hcs]
    rw [Token.scanFrom_blanks hfront, Token.scanFrom_append_blanks hback]
  rw [ofLine, ofLine, ofLineAt, ofLineAt, hscan, Token.scan, Text.trimmed, String.toList_ofList]
  exact ⟨fun h => ofLexemes_moved h _, fun h => ofLexemes_moved h _⟩

section Printed

open Text (Tight)

theorem tight_chars (e : Event) : Tight e.chars := by
  cases e with
  | list items => exact Text.tight_enclosed rfl rfl (charsAll items)
  | atom word =>
    rw [chars, atomChars]
    cases quoted : needsQuotes word.toList with
    | true => exact Text.tight_enclosed rfl rfl (escaped word.toList)
    | false =>
      have plain (c : Char) (hc : c ∈ word.toList) : isBlank c = false := by
        have h := Token.isWordChar_of_not_needsQuotes _ quoted c hc
        simp only [Token.isWordChar, isDelimiter, Bool.not_eq_true', Bool.or_eq_false_iff] at h
        exact h.1.1.1
      have filled : word.toList ≠ [] := by
        intro h
        rw [h] at quoted
        cases quoted
      exact ⟨filled, fun c hc => plain c (List.mem_of_mem_head? hc),
        fun c hc => plain c (List.mem_of_mem_getLast? hc)⟩

theorem tight_charsAll {items : List Event} (filled : items ≠ []) : Tight (charsAll items) := by
  induction items with
  | nil => exact absurd rfl filled
  | cons e rest ih =>
    have he := tight_chars e
    cases rest with
    | nil => exact he
    | cons f rest =>
      have hrest := ih (List.cons_ne_nil f rest)
      rw [charsAll]
      refine ⟨by simp, fun c hc => he.front c ?_, fun c hc => hrest.back c ?_⟩
      · rwa [List.head?_append_of_ne_nil _ he.filled] at hc
      · rwa [List.getLast?_append_of_ne_nil _ (by simp),
          List.getLast?_cons_of_ne_nil hrest.filled] at hc

end Printed

end Event

namespace Script

/-- There is something to run on the line. -/
structure Executable (line : String) : Prop where
  shown : Text.trimmed line ≠ ""
  noComment : ¬ ['-', '-'] <+: (Text.trimmed line).toList

/-- The line of the script that an executable line of the text makes. -/
structure Entry (text : String) (l : ScriptLine) (line : String) : Prop where
  place : Text.LineAt text l.line line
  executable : Executable line
  source : l.source = Text.trimmed line
  event : Event.ofLine l.source = .ok l.event

/-- Line `n` is the first executable one that cannot be read, and that is its fault. -/
structure FirstFault (text : String) (n : Nat) (line : String) (f : SyntaxError) : Prop where
  place : Text.LineAt text n line
  executable : Executable line
  fault : Event.ofLine line = .error f
  first : ∀ m earlier, m < n → Text.LineAt text m earlier → Executable earlier →
    ∃ e, Event.ofLine earlier = .ok e

theorem executable_iff {line : String} : Executable line ↔ isSkippedLine line = false := by
  have hempty : Text.trimmed line = "" ↔ Text.trim line.toList = [] := by
    rw [Text.trimmed, ← String.toList_inj, String.toList_ofList]
    rfl
  have hshown : (Text.trimmed line).toList = Text.trim line.toList := String.toList_ofList
  rw [isSkippedLine, isSkipped, Bool.or_eq_false_iff, ← hshown, Bool.eq_false_iff,
    Bool.eq_false_iff, ne_eq, ne_eq, List.isEmpty_iff, List.isPrefixOf_iff_prefix, hshown,
    ← hempty, ← hshown]
  exact ⟨fun h => ⟨h.shown, h.noComment⟩, fun h => ⟨h.1, h.2⟩⟩

theorem readable_iff {line : String} :
    Readable line ↔ (Executable line → ∃ e, Event.ofLine line = .ok e) := by
  rw [Readable, executable_iff]
  cases isSkippedLine line <;> simp

theorem forall₂_withoutReturn (ps : List (List Char)) :
    List.Forall₂ SameLine (ps.map String.ofList)
      (ps.map fun p => String.ofList (Text.withoutReturn p)) := by
  rw [List.forall₂_map_left_iff, List.forall₂_map_right_iff, List.forall₂_same]
  exact fun p _ => sameLine_withoutReturn p

theorem read_eq_pieces (text : String) :
    read text = readFrom 1 ((text.toList.splitOn '\n').map String.ofList) := by
  have h := readFrom_ended text 1
  rw [Text.lines_ended, List.map_map, Text.pieces_eq_splitOn] at h
  rw [read, ← h]
  exact (readFrom_congr (forall₂_withoutReturn _) 1).symm

theorem exists_lines (text : String) :
    ∃ lines, read text = readFrom 1 lines ∧
      ∀ n line, Text.LineAt text n line ↔ ∃ k, n = k + 1 ∧ lines[k]? = some line := by
  obtain hnil | ⟨front, last, split⟩ := List.eq_nil_or_concat (text.toList.splitOn '\n')
  · exact absurd hnil (List.splitOn_ne_nil _ _)
  rw [List.concat_eq_append] at split
  refine ⟨front.map (fun p => String.ofList (Text.withoutReturn p)) ++ [String.ofList last], ?_,
    fun n line => Text.lineAt_iff split⟩
  rw [read_eq_pieces, split, List.map_append]
  exact readFrom_congr (List.rel_append (forall₂_withoutReturn front)
    (List.forall₂_same.mpr fun x _ => .refl x)) 1

section Entries

def Says (lines : List String) (n : Nat) (l : ScriptLine) : Prop :=
  ∃ k line, l.line = n + k ∧ lines[k]? = some line ∧ Executable line ∧
    l.source = Text.trimmed line ∧ Event.ofLine line = .ok l.event

theorem says_cons {line : String} {rest : List String} {n : Nat} {l : ScriptLine} :
    Says (line :: rest) n l ↔
      (l.line = n ∧ Executable line ∧ l.source = Text.trimmed line ∧
        Event.ofLine line = .ok l.event) ∨ Says rest (n + 1) l := by
  rw [Says, ← Nat.or_exists_add_one, Says]
  simp [Nat.add_assoc, Nat.add_comm 1]

theorem mem_iff_said {lines : List String} {n : Nat} {ls : List ScriptLine}
    (h : readFrom n lines = .ok ls) (l : ScriptLine) : l ∈ ls ↔ Says lines n l := by
  induction lines generalizing n ls with
  | nil =>
    cases h
    simp [Says]
  | cons line rest ih =>
    rw [says_cons]
    cases shown : isSkippedLine line with
    | true =>
      rw [readFrom_skipped shown] at h
      simp [executable_iff, shown, ih h]
    | false =>
      obtain ⟨event, more, said, hmore, rfl⟩ := readFrom_cons_eq_ok shown h
      rw [List.mem_cons, ih hmore, said]
      obtain ⟨number, source, e⟩ := l
      simp [executable_iff, shown, eq_comm]

theorem numbers_increasing {lines : List String} {n : Nat} {ls : List ScriptLine}
    (h : readFrom n lines = .ok ls) : ls.Pairwise fun a b => a.line < b.line := by
  induction lines generalizing n ls with
  | nil =>
    cases h
    exact .nil
  | cons line rest ih =>
    cases shown : isSkippedLine line with
    | true =>
      rw [readFrom_skipped shown] at h
      exact ih h
    | false =>
      obtain ⟨event, more, said, hmore, rfl⟩ := readFrom_cons_eq_ok shown h
      refine List.pairwise_cons.mpr ⟨fun l hl => ?_, ih hmore⟩
      obtain ⟨k, _, hnumber, -⟩ := (mem_iff_said hmore l).mp hl
      simp only [hnumber]
      omega

end Entries

theorem firstMalformed_iff {text : String} {lines : List String}
    (numbered : ∀ n line, Text.LineAt text n line ↔ ∃ k, n = k + 1 ∧ lines[k]? = some line)
    {n : Nat} {source : String} {e : SyntaxError} :
    FirstMalformed lines n source e ↔
      ∃ line f, FirstFault text n line f ∧ source = Text.trimmed line ∧ e = f.atLine n := by
  constructor
  · rintro ⟨before, line, after, rfl, hbefore, rfl, shown, fault, rfl⟩
    obtain ⟨f, hf, rfl⟩ := Event.exists_of_ofLineAt fault
    refine ⟨line, f, ⟨?_, executable_iff.mpr shown, hf, fun m earlier hm place executable => ?_⟩,
      rfl, rfl⟩
    · exact (numbered _ _).mpr ⟨_, rfl, by simp⟩
    · obtain ⟨k, rfl, hk⟩ := (numbered _ _).mp place
      rw [List.getElem?_append_left (by omega)] at hk
      exact readable_iff.mp (hbefore earlier (List.mem_of_getElem? hk)) executable
  · rintro ⟨line, f, ⟨place, executable, fault, first⟩, rfl, rfl⟩
    obtain ⟨k, rfl, hk⟩ := (numbered _ _).mp place
    obtain ⟨hlt, hget⟩ := List.getElem?_eq_some_iff.mp hk
    have hsplit : lines = lines.take k ++ line :: lines.drop (k + 1) := by
      rw [← hget, ← List.drop_eq_getElem_cons hlt, List.take_append_drop]
    refine ⟨lines.take k, line, lines.drop (k + 1), hsplit, fun earlier mem => ?_, by simp [hlt.le],
      executable_iff.mp executable, by rw [Event.ofLineAt_eq, fault]; rfl, rfl⟩
    obtain ⟨j, hj⟩ := List.mem_iff_getElem?.mp mem
    rw [List.getElem?_take] at hj
    split at hj
    · exact readable_iff.mpr (first (j + 1) earlier (by omega) ((numbered _ _).mpr ⟨j, rfl, hj⟩))
    · cases hj

theorem read_cases (text : String) :
    ((∃ ls, read text = .ok ls) ↔
      ∀ n line, Text.LineAt text n line → Executable line → ∃ e, Event.ofLine line = .ok e) ∧
    (∀ ls, read text = .ok ls → ls.Pairwise (fun a b => a.line < b.line) ∧
      ∀ l, l ∈ ls ↔ ∃ line, Entry text l line) ∧
    ∀ e, read text = .error e ↔ ∃ n line f, FirstFault text n line f ∧ e = f.atLine n := by
  obtain ⟨lines, hread, numbered⟩ := exists_lines text
  have hwell : WellFormed lines ↔
      ∀ n line, Text.LineAt text n line → Executable line → ∃ e, Event.ofLine line = .ok e := by
    constructor
    · intro h n line place
      obtain ⟨k, rfl, hk⟩ := (numbered _ _).mp place
      exact readable_iff.mp (h line (List.mem_of_getElem? hk))
    · intro h line mem
      obtain ⟨k, hk⟩ := List.mem_iff_getElem?.mp mem
      exact readable_iff.mpr (h (k + 1) line ((numbered _ _).mpr ⟨k, rfl, hk⟩))
  have hfault {n : Nat} {source : String} {e : SyntaxError}
      (h : FirstMalformed lines n source e) : read text = .error e :=
    hread.trans (readFrom_of_firstMalformed h)
  refine ⟨?_, fun ls h => ?_, fun e => ⟨fun h => ?_, ?_⟩⟩
  · rw [← hwell]
    constructor
    · rintro ⟨ls, h⟩
      by_contra hbad
      obtain ⟨n, source, e, hfirst⟩ := exists_firstMalformed hbad
      rw [hfault hfirst] at h
      cases h
    · intro h
      rw [hread]
      exact readFrom_of_wellFormed h 1
  · rw [hread] at h
    refine ⟨numbers_increasing h, fun l => (mem_iff_said h l).trans ?_⟩
    constructor
    · rintro ⟨k, line, hnumber, hk, executable, hsource, said⟩
      refine ⟨line, (numbered _ _).mpr ⟨k, by omega, hk⟩, executable, hsource, ?_⟩
      rw [hsource]
      exact Event.ofLine_trimmed.mpr said
    · rintro ⟨line, place, executable, hsource, said⟩
      obtain ⟨k, hnumber, hk⟩ := (numbered _ _).mp place
      rw [hsource] at said
      exact ⟨k, line, by omega, hk, executable, hsource, Event.ofLine_trimmed.mp said⟩
  · have hbad : ¬ WellFormed lines := by
      intro hgood
      obtain ⟨ls, hls⟩ := readFrom_of_wellFormed hgood 1
      rw [hread, hls] at h
      cases h
    obtain ⟨n, source, e', hfirst⟩ := exists_firstMalformed hbad
    rw [hfault hfirst] at h
    cases h
    obtain ⟨line, f, hfirst, -, he⟩ := (firstMalformed_iff numbered).mp hfirst
    exact ⟨n, line, f, hfirst, he⟩
  · rintro ⟨n, line, f, hfirst, rfl⟩
    exact hfault ((firstMalformed_iff numbered).mpr ⟨line, f, hfirst, rfl, rfl⟩)

section Rows

/-- A line of a text to be written: one with nothing to run, or a printed event. -/
inductive Row where
  | idle (line : String)
  | printed (items : List Event)

namespace Row

def text : Row → String
  | .idle line => line
  | .printed items => (Event.list items).line

def line? (n : Nat) : Row → Option ScriptLine
  | .idle _ => none
  | .printed items => some ⟨n, (Event.list items).line, .list items⟩

/-- The row stays one line of the text, and it is told by its looks whether there is something to
run on it. -/
def Fits : Row → Prop
  | .idle line => '\n' ∉ line.toList ∧ ¬ Executable line
  | .printed items => '\n' ∉ (Event.list items).line.toList ∧ items ≠ [] ∧
    ∀ word rest, items = .atom word :: rest → Event.needsQuotes word.toList = false →
      ¬ ['-', '-'] <+: word.toList

theorem Fits.unbroken {row : Row} (fits : row.Fits) : '\n' ∉ row.text.toList := by
  cases row with
  | idle line => exact fits.1
  | printed items => exact fits.1

end Row

theorem not_prefix_chars {e : Event}
    (bare : ∀ word, e = .atom word → Event.needsQuotes word.toList = false →
      ¬ ['-', '-'] <+: word.toList) (cs : List Char) : ¬ ['-', '-'] <+: e.chars ++ ' ' :: cs := by
  cases e with
  | list items => simp [Event.chars]
  | atom word =>
    rw [Event.chars, Event.atomChars]
    cases quoted : Event.needsQuotes word.toList with
    | true => simp
    | false =>
      have h := bare word rfl quoted
      rw [if_neg (by simp)]
      rcases hword : word.toList with _ | ⟨c, _ | ⟨d, more⟩⟩
      · simp
      · simp
      · simpa [hword] using h

theorem executable_printed {items : List Event} (fits : (Row.printed items).Fits) :
    Text.trimmed (Event.list items).line = (Event.list items).line ∧
      Executable (Event.list items).line := by
  obtain ⟨-, filled, bare⟩ := fits
  have tight := Event.tight_charsAll filled
  have hchars : (Event.list items).line.toList = Event.charsAll items := String.toList_ofList
  have htrim : Text.trimmed (Event.list items).line = (Event.list items).line := by
    rw [Text.trimmed, hchars, tight.trim_eq]
    rfl
  refine ⟨htrim, ?_, ?_⟩
  · rw [htrim, ← String.toList_inj.ne, hchars]
    exact tight.filled
  · rw [htrim, hchars]
    obtain ⟨e, rest, rfl⟩ := List.exists_cons_of_ne_nil filled
    have hfirst (cs : List Char) : ¬ ['-', '-'] <+: e.chars ++ ' ' :: cs :=
      not_prefix_chars (fun word hword => bare word rest (by rw [hword])) cs
    cases rest with
    | nil => exact fun h => hfirst [] (h.trans (List.prefix_append _ _))
    | cons f rest => exact hfirst _

theorem readFrom_rows {rows : List Row} (fits : ∀ row ∈ rows, row.Fits) (n : Nat) :
    readFrom n (rows.map Row.text) =
      .ok ((rows.zipIdx n).filterMap fun x => x.1.line? x.2) := by
  induction rows generalizing n with
  | nil => rfl
  | cons row rest ih =>
    obtain ⟨hrow, hrest⟩ := List.forall_mem_cons.mp fits
    rw [List.map_cons, List.zipIdx_cons, List.filterMap_cons]
    cases row with
    | idle line =>
      have hidle : isSkippedLine line = true := by simpa [executable_iff] using hrow.2
      rw [Row.text, readFrom_skipped hidle, ih hrest]
      rfl
    | printed items =>
      obtain ⟨htrim, executable⟩ := executable_printed hrow
      rw [Row.text, readFrom_read (executable_iff.mp executable)
        (Event.ofLine_charsAll items), ih hrest, htrim]
      rfl

theorem read_rows {rows : List Row} (fits : ∀ row ∈ rows, row.Fits) :
    read ("\n".intercalate (rows.map Row.text)) =
      .ok ((rows.zipIdx 1).filterMap fun x => x.1.line? x.2) := by
  rw [← readFrom_rows fits, read_eq_pieces, String.toList_intercalate, List.map_map]
  cases rows with
  | nil => rfl
  | cons row rest =>
    have unbroken : ∀ l ∈ (row :: rest).map (String.toList ∘ Row.text), '\n' ∉ l := by
      rw [List.forall_mem_map]
      exact fun row hrow => (fits row hrow).unbroken
    have split := List.splitOn_intercalate '\n' unbroken (by simp)
    rw [show "\n".toList = ['\n'] from rfl, split, List.map_map]
    simp [Function.comp_def]

end Rows

/-- A text is a script just if each executable line can be read. The script then has an entry for
each of them, with the number of the line and what it says without the blanks around it, and
nothing else. Otherwise its fault is that of the first line that cannot be read, in the column
where it stands on the whole line. Printed events that stay on their lines and do not look like
comments are read back where they stand among lines with nothing to run. -/
theorem read_exact :
    (∀ text,
      ((∃ ls, read text = .ok ls) ↔
        ∀ n line, Text.LineAt text n line → Executable line → ∃ e, Event.ofLine line = .ok e) ∧
      (∀ ls, read text = .ok ls → ls.Pairwise (fun a b => a.line < b.line) ∧
        ∀ l, l ∈ ls ↔ ∃ line, Entry text l line) ∧
      ∀ e, read text = .error e ↔ ∃ n line f, FirstFault text n line f ∧ e = f.atLine n) ∧
    ∀ rows : List Row, (∀ row ∈ rows, row.Fits) →
      read ("\n".intercalate (rows.map Row.text)) =
        .ok ((rows.zipIdx 1).filterMap fun x => x.1.line? x.2) :=
  ⟨read_cases, fun _ => read_rows⟩

def dashedRows : List Row :=
  [.idle "-- setup\r", .printed [.atom "-- x", .list [.atom "--"]]]

theorem read_exact_dashes :
    (∀ row ∈ dashedRows, row.Fits) ∧
    read "-- setup\r\n\"-- x\" (--)" =
      .ok [⟨2, "\"-- x\" (--)", .list [.atom "-- x", .list [.atom "--"]]⟩] ∧
    FirstFault "Foo\n Bar (baz" 2 " Bar (baz" ⟨⟨1, 6⟩, .unclosedOpening⟩ ∧
    read "Foo\n Bar (baz" = .error ⟨⟨2, 6⟩, .unclosedOpening⟩ := by
  have fits : ∀ row ∈ dashedRows, row.Fits := by
    rw [dashedRows, List.forall_mem_cons, List.forall_mem_singleton]
    refine ⟨⟨by decide +kernel, ?_⟩, by decide +kernel, by simp, ?_⟩
    · rw [executable_iff]
      decide +kernel
    · rintro word rest heq quoted
      cases heq
      cases quoted
  have split : "Foo\n Bar (baz".toList.splitOn '\n' = ["Foo".toList, " Bar (baz".toList] := by
    decide +kernel
  have fault : FirstFault "Foo\n Bar (baz" 2 " Bar (baz" ⟨⟨1, 6⟩, .unclosedOpening⟩ := by
    refine ⟨⟨1, " Bar (baz".toList, rfl, by rw [split]; rfl, by rw [split]; rfl⟩,
      executable_iff.mpr (by decide +kernel), by decide +kernel, ?_⟩
    rintro m earlier hm ⟨k, piece, rfl, hpiece, rfl⟩ -
    obtain rfl : k = 0 := by omega
    rw [split] at hpiece ⊢
    cases hpiece
    exact ⟨.list [.atom "Foo"], by decide +kernel⟩
  have hrows := read_exact.2 dashedRows fits
  have hfault := ((read_exact.1 "Foo\n Bar (baz").2.2 _).mpr ⟨2, _, _, fault, rfl⟩
  exact ⟨fits, hrows, fault, hfault⟩

end Script

end LedgerScript
