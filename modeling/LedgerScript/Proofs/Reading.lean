import Mathlib
import LedgerScript.Syntax.Script

/-!
# Reading of scripts

What a line says does not depend on its number or on blanks at its end; only the place of a fault
does, which is on the line. So a script is read line by line: it is malformed at the first
line that cannot be read, and the lines of two texts with a newline between them are those of
the first and then those of the second, whose numbers go up by as much as the first has newlines
and one more.
-/

set_option autoImplicit false

namespace LedgerScript

def Place.onLine (p : Place) (n : Nat) : Place := { p with line := n }

def Lexeme.onLine (l : Lexeme) (n : Nat) : Lexeme := { l with place := l.place.onLine n }

namespace Token

theorem scanFrom_nil (place : Place) : scanFrom place [] = .ok [] := by
  rw [scanFrom.eq_def]

theorem scanFrom_unterminated (place : Place) (rest : List Char) (h : quotedBody rest = none) :
    scanFrom place ('"' :: rest) = .error ⟨place, .unterminatedQuote⟩ := by
  rw [scanFrom.eq_def]
  dsimp only
  rw [if_neg (by decide), if_neg (by decide), if_neg (by decide), if_pos rfl]
  split
  · rfl
  · next body n after hsome =>
    rw [h] at hsome
    cases hsome

theorem isWordChar_of_not_delimiter {c : Char} (hblank : Text.isBlank c = false) (ho : c ≠ '(')
    (hc : c ≠ ')') (hq : c ≠ '"') : isWordChar c = true := by
  simp [isWordChar, Event.isDelimiter, hblank, ho, hc, hq]

/-- Induction over a text as the scanner goes through it, one token at a time. -/
@[elab_as_elim]
theorem scan_induction {P : List Char → Prop} (cs : List Char) (nil : P [])
    (blank : ∀ c rest, Text.isBlank c = true → P rest → P (c :: rest))
    (opening : ∀ rest, P rest → P ('(' :: rest)) (closing : ∀ rest, P rest → P (')' :: rest))
    (quoted : ∀ rest body n after, quotedBody rest = some (body, n, after) → P after →
      P ('"' :: rest))
    (unterminated : ∀ rest, quotedBody rest = none → P ('"' :: rest))
    (word : ∀ c rest, isWordChar c = true → P (rest.dropWhile isWordChar) → P (c :: rest)) :
    P cs := by
  induction h : cs.length using Nat.strongRecOn generalizing cs with
  | ind n ih =>
    subst h
    cases cs with
    | nil => exact nil
    | cons c rest =>
      have shorter {after : List Char} (h : after.length ≤ rest.length) : P after :=
        ih after.length (by rw [List.length_cons]; omega) after rfl
      cases hblank : Text.isBlank c with
      | true => exact blank c rest hblank (shorter (Nat.le_refl _))
      | false =>
        by_cases ho : c = '('
        · exact ho ▸ opening rest (shorter (Nat.le_refl _))
        by_cases hc : c = ')'
        · exact hc ▸ closing rest (shorter (Nat.le_refl _))
        by_cases hq : c = '"'
        · subst hq
          rcases hbody : quotedBody rest with _ | ⟨body, n, after⟩
          · exact unterminated rest hbody
          · have hlength := length_of_quotedBody rest body after n hbody
            exact quoted rest body n after hbody (shorter (by omega))
        · have hlength := (List.dropWhile_sublist isWordChar (l := rest)).length_le
          exact word c rest (isWordChar_of_not_delimiter hblank ho hc hq) (shorter hlength)

def scannedOn (n : Nat) (x : Except SyntaxError (List Lexeme)) : Except SyntaxError (List Lexeme) :=
  (x.map (List.map (·.onLine n))).mapError (·.atLine n)

theorem scannedOn_cons (n : Nat) (token : Token) (p : Place)
    (x : Except SyntaxError (List Lexeme)) :
    scannedOn n ((⟨token, p⟩ :: ·) <$> x) = (⟨token, p.onLine n⟩ :: ·) <$> scannedOn n x := by
  cases x <;> rfl

theorem scanFrom_onLine (n : Nat) (cs : List Char) :
    ∀ p : Place, scanFrom (p.onLine n) cs = scannedOn n (scanFrom p cs) := by
  induction cs using scan_induction with
  | nil =>
    intro p
    rw [scanFrom_nil, scanFrom_nil]
    rfl
  | blank c rest hc ih =>
    intro p
    rw [scanFrom_blank _ c rest hc, scanFrom_blank _ c rest hc, ← ih]
    rfl
  | opening rest ih =>
    intro p
    rw [scanFrom_opening, scanFrom_opening, scannedOn_cons, ← ih]
    rfl
  | closing rest ih =>
    intro p
    rw [scanFrom_closing, scanFrom_closing, scannedOn_cons, ← ih]
    rfl
  | quoted rest body columns after hbody ih =>
    intro p
    rw [scanFrom_quoted _ rest body after columns hbody,
      scanFrom_quoted _ rest body after columns hbody, scannedOn_cons, ← ih]
    rfl
  | unterminated rest hbody =>
    intro p
    rw [scanFrom_unterminated _ rest hbody, scanFrom_unterminated _ rest hbody]
    rfl
  | word c rest hc ih =>
    intro p
    rw [scanFrom_word _ c rest hc, scanFrom_word _ c rest hc, scannedOn_cons, ← ih]
    rfl

theorem quotedBody_append {c : Char} (hc : c ≠ '"') (cs : List Char) :
    quotedBody (cs ++ [c]) =
      (quotedBody cs).map (fun (body, n, after) => (body, n, after ++ [c])) := by
  fun_induction quotedBody cs with
  | case1 =>
    rw [List.nil_append, quotedBody.eq_4]
    · rfl
    · exact hc
    · intro _ _ _ h
      cases h
  | case2 rest => rfl
  | case3 d rest ih =>
    rw [List.cons_append, List.cons_append, quotedBody, ih]
    cases quotedBody rest <;> rfl
  | case4 d rest hd hescape ih =>
    by_cases hslash : d = '\\'
    · subst hslash
      cases rest with
      | nil => rfl
      | cons e more => exact (hescape e more rfl rfl).elim
    · rw [List.cons_append, quotedBody.eq_4, ih]
      · cases quotedBody rest <;> rfl
      · exact hd
      · intro _ _ h
        exact absurd h hslash

theorem scanFrom_append_blank {c : Char} (hc : Text.isBlank c = true) (cs : List Char) :
    ∀ p, scanFrom p (cs ++ [c]) = scanFrom p cs := by
  have hword : isWordChar c = false := by simp [isWordChar, Event.isDelimiter, hc]
  have hquote : c ≠ '"' := by
    rintro rfl
    cases hc
  induction cs using scan_induction with
  | nil =>
    intro p
    rw [List.nil_append, scanFrom_blank _ c [] hc, scanFrom_nil, scanFrom_nil]
  | blank d rest hd ih =>
    intro p
    rw [List.cons_append, scanFrom_blank _ d _ hd, scanFrom_blank _ d _ hd, ih]
  | opening rest ih =>
    intro p
    rw [List.cons_append, scanFrom_opening, scanFrom_opening, ih]
  | closing rest ih =>
    intro p
    rw [List.cons_append, scanFrom_closing, scanFrom_closing, ih]
  | quoted rest body n after hbody ih =>
    intro p
    have hlonger : quotedBody (rest ++ [c]) = some (body, n, after ++ [c]) := by
      rw [quotedBody_append hquote, hbody]
      rfl
    rw [List.cons_append, scanFrom_quoted _ _ _ _ _ hlonger, scanFrom_quoted _ _ _ _ _ hbody, ih]
  | unterminated rest hbody =>
    intro p
    have hlonger : quotedBody (rest ++ [c]) = none := by
      rw [quotedBody_append hquote, hbody]
      rfl
    rw [List.cons_append, scanFrom_unterminated _ _ hlonger, scanFrom_unterminated _ _ hbody]
  | word d rest hd ih =>
    intro p
    have htake : (rest ++ [c]).takeWhile isWordChar = rest.takeWhile isWordChar := by
      rw [List.takeWhile_append]
      split
      · next hall =>
        rw [List.takeWhile_cons_of_neg (by simp [hword]), List.append_nil]
        exact ((List.takeWhile_prefix isWordChar).eq_of_length hall).symm
      · rfl
    have hdrop : (rest ++ [c]).dropWhile isWordChar = rest.dropWhile isWordChar ++ [c] := by
      rw [List.dropWhile_append]
      split
      · next hnone =>
        rw [List.dropWhile_cons_of_neg (by simp [hword]), List.isEmpty_iff.mp hnone]
        rfl
      · rfl
    rw [List.cons_append, scanFrom_word _ d _ hd, scanFrom_word _ d _ hd, htake, hdrop, ih]

end Token

namespace Event

def Group.onLine (g : Group) (n : Nat) : Group := { g with opening := g.opening.onLine n }

theorem build_onLine (n : Nat) (ls : List Lexeme) : ∀ groups items,
    build (groups.map (·.onLine n)) items (ls.map (·.onLine n)) =
      (build groups items ls).mapError (·.atLine n) := by
  induction ls with
  | nil =>
    intro groups items
    cases groups <;> rfl
  | cons l rest ih =>
    intro groups items
    obtain ⟨token, place⟩ := l
    cases token with
    | word s => exact ih groups (.atom s :: items)
    | quoted s => exact ih groups (.atom s :: items)
    | opening => exact ih (⟨place, items⟩ :: groups) []
    | closing =>
      cases groups with
      | nil => rfl
      | cons g outer => exact ih outer (.list items.reverse :: g.before)

theorem ofLexemes_onLine (n : Nat) (ls : List Lexeme) :
    ofLexemes (ls.map (·.onLine n)) = (ofLexemes ls).mapError (·.atLine n) := by
  have hbuild := build_onLine n ls [] []
  rw [List.map_nil] at hbuild
  rw [ofLexemes, ofLexemes, hbuild]
  cases build [] [] ls <;> rfl

theorem ofLineAt_eq (source : String) (n : Nat) :
    ofLineAt source n = (ofLine source).mapError (·.atLine n) := by
  have hscan : Token.scan source n = Token.scannedOn n (Token.scan source 1) :=
    Token.scanFrom_onLine n source.toList ⟨1, 1⟩
  rw [ofLine, ofLineAt, ofLineAt, hscan]
  cases Token.scan source 1 with
  | error e => rfl
  | ok ls => exact ofLexemes_onLine n ls

theorem ofLineAt_of_ok {source : String} {e : Event} (h : ofLine source = .ok e) (n : Nat) :
    ofLineAt source n = .ok e := by
  rw [ofLineAt_eq, h]
  rfl

theorem exists_of_ofLineAt {source : String} {n : Nat} {e : SyntaxError}
    (h : ofLineAt source n = .error e) : ∃ f, ofLine source = .error f ∧ e = f.atLine n := by
  rw [ofLineAt_eq] at h
  cases hline : ofLine source with
  | error f =>
    rw [hline] at h
    cases h
    exact ⟨f, rfl, rfl⟩
  | ok event =>
    rw [hline] at h
    cases h

theorem line_of_ofLineAt {source : String} {n : Nat} {e : SyntaxError}
    (h : ofLineAt source n = .error e) : e.place.line = n := by
  obtain ⟨f, -, rfl⟩ := exists_of_ofLineAt h
  rfl

theorem ofLineAt_atLine {source : String} {n : Nat} {e : SyntaxError}
    (h : ofLineAt source n = .error e) (m : Nat) : ofLineAt source m = .error (e.atLine m) := by
  obtain ⟨f, hf, rfl⟩ := exists_of_ofLineAt h
  rw [ofLineAt_eq, hf]
  rfl

end Event

namespace Text

theorem pieces_newline (a b : List Char) : pieces (a ++ '\n' :: b) = pieces a ++ pieces b := by
  induction a with
  | nil => rfl
  | cons c rest ih =>
    obtain ⟨p, ps, hrest⟩ := List.exists_cons_of_ne_nil (pieces_ne_nil rest)
    rw [hrest] at ih
    rw [List.cons_append, pieces, pieces, ih, hrest]
    split <;> rfl

theorem length_pieces (cs : List Char) : (pieces cs).length = cs.count '\n' + 1 := by
  induction cs with
  | nil => rfl
  | cons c rest ih =>
    obtain ⟨p, ps, hrest⟩ := List.exists_cons_of_ne_nil (pieces_ne_nil rest)
    rw [hrest] at ih
    by_cases hc : c = '\n'
    · rw [pieces, if_pos hc, hrest, List.length_cons, ih, hc, List.count_cons_self]
    · rw [pieces, if_neg hc, hrest, List.count_cons_of_ne hc, ← ih]
      rfl

theorem endedLines_append (ps : List (List Char)) {qs : List (List Char)} (h : qs ≠ []) :
    endedLines (ps ++ qs) = ps.map withoutReturn ++ endedLines qs := by
  induction ps with
  | nil => rfl
  | cons p rest ih =>
    obtain ⟨q, more, hmore⟩ := List.exists_cons_of_ne_nil (List.append_ne_nil_of_right_ne_nil rest h)
    rw [List.cons_append, hmore, endedLines, ← hmore, ih]
    rfl

theorem lines_newline (a b : String) :
    lines (a ++ "\n" ++ b) =
      ((pieces a.toList).map withoutReturn).map String.ofList ++ lines b := by
  have htoList : (a ++ "\n" ++ b).toList = a.toList ++ '\n' :: b.toList := by
    rw [String.toList_append, String.toList_append, List.append_assoc]
    rfl
  rw [lines, lineChars, htoList, pieces_newline, endedLines_append _ (pieces_ne_nil _),
    List.map_append]
  rfl

theorem lines_ended (a : String) :
    lines (a ++ "\n") = ((pieces a.toList).map withoutReturn).map String.ofList := by
  have h := lines_newline a ""
  rwa [String.append_empty, show lines "" = [] from rfl, List.append_nil] at h

theorem lines_joined (a b : String) : lines (a ++ "\n" ++ b) = lines (a ++ "\n") ++ lines b := by
  rw [lines_newline, lines_ended]

theorem length_lines_ended (a : String) :
    (lines (a ++ "\n")).length = a.toList.count '\n' + 1 := by
  rw [lines_ended, List.length_map, List.length_map, length_pieces]

theorem lines_ended_cases (a : String) :
    lines (a ++ "\n") = lines a ++ [""] ∨
      ∃ front last, lines a = front ++ [String.ofList last] ∧
        lines (a ++ "\n") = front ++ [String.ofList (withoutReturn last)] := by
  rw [lines_ended, lines, lineChars]
  obtain hnil | ⟨init, last, hpieces⟩ := List.eq_nil_or_concat (pieces a.toList)
  · exact absurd hnil (pieces_ne_nil _)
  rw [hpieces, List.concat_eq_append, endedLines_append init (List.cons_ne_nil last []),
    List.map_append, List.map_append, List.map_append]
  cases last with
  | nil =>
    rw [endedLines, List.isEmpty_nil, if_pos rfl, List.map_nil, List.append_nil]
    exact .inl rfl
  | cons c rest => exact .inr ⟨_, c :: rest, rfl, rfl⟩

end Text

def ScriptLine.shifted (l : ScriptLine) (d : Nat) : ScriptLine := { l with line := l.line + d }

namespace Script

/-- Two lines that a script does not tell apart. -/
structure SameLine (a b : String) : Prop where
  skipped : isSkippedLine a = isSkippedLine b
  read : ∀ n, Event.ofLineAt a n = Event.ofLineAt b n
  source : Text.trimmed a = Text.trimmed b

theorem SameLine.refl (a : String) : SameLine a a := ⟨rfl, fun _ => rfl, rfl⟩

theorem trim_append_blank {c : Char} (hc : Text.isBlank c = true) (cs : List Char) :
    Text.trim (cs ++ [c]) = Text.trim cs := by
  rw [Text.trim, Text.trim, Text.trimStart, Text.trimStart, List.dropWhile_append]
  split
  · next hnone =>
    rw [List.dropWhile_cons_of_pos hc, List.isEmpty_iff.mp hnone]
    rfl
  · rw [Text.trimEnd, List.reverse_append, List.reverse_singleton, List.singleton_append,
      List.dropWhile_cons_of_pos hc]
    rfl

theorem sameLine_append_blank {c : Char} (hc : Text.isBlank c = true) (cs : List Char) :
    SameLine (String.ofList (cs ++ [c])) (String.ofList cs) where
  skipped := by
    simp only [isSkippedLine, isSkipped, String.toList_ofList, trim_append_blank hc]
  read n := by
    simp only [Event.ofLineAt, Token.scan, String.toList_ofList, Token.scanFrom_append_blank hc]
  source := by simp only [Text.trimmed, String.toList_ofList, trim_append_blank hc]

theorem sameLine_withoutReturn (cs : List Char) :
    SameLine (String.ofList cs) (String.ofList (Text.withoutReturn cs)) := by
  rw [Text.withoutReturn]
  split
  · next hreturn =>
    obtain ⟨front, rfl⟩ := List.getLast?_eq_some_iff.mp hreturn
    rw [List.dropLast_concat]
    exact sameLine_append_blank rfl front
  · exact .refl _

def Readable (line : String) : Prop := isSkippedLine line = true ∨ ∃ e, Event.ofLine line = .ok e

theorem SameLine.readable {a b : String} (same : SameLine a b) (h : Readable a) : Readable b := by
  have hread : Event.ofLine a = Event.ofLine b := same.read 1
  rwa [Readable, same.skipped, hread] at h

theorem not_readable_iff {line : String} : ¬ Readable line ↔
    isSkippedLine line = false ∧ ∃ e, Event.ofLine line = .error e := by
  rw [Readable, not_or, Bool.not_eq_true]
  refine and_congr_right fun _ => ?_
  cases h : Event.ofLine line with
  | error e => simp
  | ok event => simp

def WellFormed (lines : List String) : Prop := ∀ line ∈ lines, Readable line

/-- Line `n` is the first malformed one: what it says, blanks around it apart, and its fault. -/
def FirstMalformed (lines : List String) (n : Nat) (source : String) (e : SyntaxError) : Prop :=
  ∃ before line after, lines = before ++ line :: after ∧ WellFormed before ∧
    before.length + 1 = n ∧ isSkippedLine line = false ∧ Event.ofLineAt line n = .error e ∧
    Text.trimmed line = source

namespace FirstMalformed

variable {lines others : List String} {n : Nat} {source : String} {e : SyntaxError}

theorem append (h : FirstMalformed lines n source e) (others : List String) :
    FirstMalformed (lines ++ others) n source e := by
  obtain ⟨before, line, after, rfl, rest⟩ := h
  exact ⟨before, line, after ++ others, List.append_assoc _ _ _, rest⟩

theorem after (h : FirstMalformed lines n source e) (earlier : WellFormed others) :
    FirstMalformed (others ++ lines) (n + others.length) source
      (e.atLine (n + others.length)) := by
  obtain ⟨before, line, after, rfl, hbefore, rfl, shown, fault, hsource⟩ := h
  refine ⟨others ++ before, line, after, (List.append_assoc _ _ _).symm,
    List.forall_mem_append.mpr ⟨earlier, hbefore⟩, ?_, shown, Event.ofLineAt_atLine fault _, hsource⟩
  rw [List.length_append]
  omega

theorem sameLine {front : List String} {x y : String} (same : SameLine x y)
    (h : FirstMalformed (front ++ [x]) n source e) :
    FirstMalformed (front ++ [y]) n source e := by
  obtain ⟨before, line, after, hlines, hbefore, hn, shown, fault, hsource⟩ := h
  obtain rfl | ⟨more, last, rfl⟩ := List.eq_nil_or_concat after
  · obtain ⟨rfl, hx⟩ := List.append_inj' hlines rfl
    cases hx
    exact ⟨front, y, [], rfl, hbefore, hn, same.skipped ▸ shown, same.read n ▸ fault,
      same.source ▸ hsource⟩
  · rw [List.concat_eq_append, ← List.cons_append, ← List.append_assoc] at hlines
    obtain ⟨rfl, -⟩ := List.append_inj' hlines rfl
    exact ⟨before, line, more ++ [y], by simp, hbefore, hn, shown, fault, hsource⟩

end FirstMalformed

theorem exists_firstMalformed {lines : List String} (h : ¬ WellFormed lines) :
    ∃ n source e, FirstMalformed lines n source e := by
  induction lines with
  | nil => exact absurd nofun h
  | cons line rest ih =>
    by_cases hline : Readable line
    · have hrest : ¬ WellFormed rest := fun hrest => h (List.forall_mem_cons.mpr ⟨hline, hrest⟩)
      obtain ⟨n, source, e, hfirst⟩ := ih hrest
      exact ⟨_, source, _, hfirst.after (List.forall_mem_singleton.mpr hline)⟩
    · obtain ⟨shown, e, fault⟩ := not_readable_iff.mp hline
      exact ⟨1, _, e, [], line, rest, rfl, nofun, rfl, shown, fault, rfl⟩

theorem readFrom_skipped {line : String} (h : isSkippedLine line = true) (n : Nat)
    (rest : List String) : readFrom n (line :: rest) = readFrom (n + 1) rest := by
  rw [readFrom, if_pos h]

theorem readFrom_read {line : String} (shown : isSkippedLine line = false) {event : Event}
    (said : Event.ofLine line = .ok event) (n : Nat) (rest : List String) :
    readFrom n (line :: rest) =
      (⟨n, Text.trimmed line, event⟩ :: ·) <$> readFrom (n + 1) rest := by
  rw [readFrom, if_neg (by simp [shown]), Event.ofLineAt_of_ok said]
  rfl

theorem readFrom_malformed {line : String} (shown : isSkippedLine line = false) {n : Nat}
    {e : SyntaxError} (fault : Event.ofLineAt line n = .error e) (rest : List String) :
    readFrom n (line :: rest) = .error e := by
  rw [readFrom, if_neg (by simp [shown]), fault]
  rfl

theorem readFrom_cons_eq_ok {line : String} (shown : isSkippedLine line = false) {n : Nat}
    {rest : List String} {ls : List ScriptLine} (h : readFrom n (line :: rest) = .ok ls) :
    ∃ event more, Event.ofLine line = .ok event ∧ readFrom (n + 1) rest = .ok more ∧
      ls = ⟨n, Text.trimmed line, event⟩ :: more := by
  cases said : Event.ofLine line with
  | error e =>
    have fault : Event.ofLineAt line n = .error (e.atLine n) := by
      rw [Event.ofLineAt_eq, said]
      rfl
    rw [readFrom_malformed shown fault] at h
    cases h
  | ok event =>
    rw [readFrom_read shown said] at h
    cases hmore : readFrom (n + 1) rest with
    | error e =>
      rw [hmore] at h
      cases h
    | ok more =>
      rw [hmore] at h
      cases h
      exact ⟨event, more, rfl, rfl, rfl⟩

section Readable

variable {lines : List String} {n : Nat} {ls : List ScriptLine}

theorem readFrom_of_wellFormed (h : WellFormed lines) (n : Nat) :
    ∃ ls, readFrom n lines = .ok ls := by
  induction lines generalizing n with
  | nil => exact ⟨[], rfl⟩
  | cons line rest ih =>
    obtain ⟨hline, hrest⟩ := List.forall_mem_cons.mp h
    obtain ⟨more, hmore⟩ := ih hrest (n + 1)
    cases shown : isSkippedLine line with
    | true => exact ⟨more, (readFrom_skipped shown n rest).trans hmore⟩
    | false =>
      obtain hskipped | ⟨event, said⟩ := hline
      · rw [shown] at hskipped
        cases hskipped
      · rw [readFrom_read shown said, hmore]
        exact ⟨_, rfl⟩

theorem readFrom_append (h : readFrom n lines = .ok ls) (others : List String) :
    readFrom n (lines ++ others) = (ls ++ ·) <$> readFrom (n + lines.length) others := by
  induction lines generalizing n ls with
  | nil =>
    cases h
    exact (id_map (readFrom n others)).symm
  | cons line rest ih =>
    rw [List.cons_append, List.length_cons, Nat.add_comm rest.length, ← Nat.add_assoc]
    cases shown : isSkippedLine line with
    | true =>
      rw [readFrom_skipped shown] at h
      rw [readFrom_skipped shown, ih h]
    | false =>
      obtain ⟨event, more, said, hmore, rfl⟩ := readFrom_cons_eq_ok shown h
      rw [readFrom_read shown said, ih hmore, ← comp_map]
      rfl

theorem readFrom_shifted (h : readFrom n lines = .ok ls) (d : Nat) :
    readFrom (n + d) lines = .ok (ls.map (·.shifted d)) := by
  induction lines generalizing n ls with
  | nil =>
    cases h
    rfl
  | cons line rest ih =>
    cases shown : isSkippedLine line with
    | true =>
      rw [readFrom_skipped shown] at h
      rw [readFrom_skipped shown, Nat.add_right_comm]
      exact ih h
    | false =>
      obtain ⟨event, more, said, hmore, rfl⟩ := readFrom_cons_eq_ok shown h
      rw [readFrom_read shown said, Nat.add_right_comm, ih hmore]
      rfl

theorem readFrom_of_firstMalformed {source : String} {e : SyntaxError}
    (h : FirstMalformed lines n source e) : readFrom 1 lines = .error e := by
  obtain ⟨before, line, after, rfl, hbefore, rfl, shown, fault, -⟩ := h
  obtain ⟨ls, hread⟩ := readFrom_of_wellFormed hbefore 1
  rw [readFrom_append hread, Nat.add_comm, readFrom_malformed shown fault]
  rfl

theorem readFrom_congr {xs ys : List String} (same : List.Forall₂ SameLine xs ys) (n : Nat) :
    readFrom n xs = readFrom n ys := by
  induction same generalizing n with
  | nil => rfl
  | cons hline _ ih => simp only [readFrom, hline.skipped, hline.read, hline.source, ih]

theorem readFrom_concat_skipped {line : String} (h : isSkippedLine line = true)
    (front : List String) (n : Nat) : readFrom n (front ++ [line]) = readFrom n front := by
  induction front generalizing n with
  | nil => exact readFrom_skipped h n []
  | cons first rest ih => simp only [List.cons_append, readFrom, ih]

end Readable

theorem readFrom_ended (text : String) (n : Nat) :
    readFrom n (Text.lines (text ++ "\n")) = readFrom n (Text.lines text) := by
  obtain hended | ⟨front, last, htext, hended⟩ := Text.lines_ended_cases text
  · rw [hended]
    exact readFrom_concat_skipped rfl (Text.lines text) n
  · have same : List.Forall₂ SameLine (front ++ [String.ofList last])
        (front ++ [String.ofList (Text.withoutReturn last)]) :=
      List.rel_append (List.forall₂_same.mpr fun line _ => .refl line)
        (.cons (sameLine_withoutReturn last) .nil)
    rw [htext, hended, readFrom_congr same]

theorem WellFormed.ended {text : String} (h : WellFormed (Text.lines text)) :
    WellFormed (Text.lines (text ++ "\n")) := by
  obtain hended | ⟨front, last, htext, hended⟩ := Text.lines_ended_cases text
  · rw [hended]
    exact List.forall_mem_append.mpr ⟨h, List.forall_mem_singleton.mpr (.inl rfl)⟩
  · rw [htext] at h
    obtain ⟨hfront, hlast⟩ := List.forall_mem_append.mp h
    rw [hended]
    refine List.forall_mem_append.mpr ⟨hfront, List.forall_mem_singleton.mpr ?_⟩
    exact (sameLine_withoutReturn last).readable (List.forall_mem_singleton.mp hlast)

theorem FirstMalformed.ended {text source : String} {n : Nat} {e : SyntaxError}
    (h : FirstMalformed (Text.lines text) n source e) :
    FirstMalformed (Text.lines (text ++ "\n")) n source e := by
  obtain hended | ⟨front, last, htext, hended⟩ := Text.lines_ended_cases text
  · rw [hended]
    exact h.append [""]
  · rw [hended]
    rw [htext] at h
    exact h.sameLine (sameLine_withoutReturn last)

theorem sourceAt_of_firstMalformed {text source : String} {n : Nat} {e : SyntaxError}
    (h : FirstMalformed (Text.lines text) n source e) : sourceAt text n = source := by
  obtain ⟨before, line, after, hlines, -, rfl, -, -, rfl⟩ := h
  rw [sourceAt, hlines, Nat.add_sub_cancel, List.getElem?_append_right (Nat.le_refl _),
    Nat.sub_self]
  rfl

/-- A text after a newline is read as it is alone, but for the numbers of its lines. -/
theorem read_joined {first second : String} {ls ms : List ScriptLine}
    (hfirst : read first = .ok ls) (hsecond : read second = .ok ms) :
    read (first ++ "\n" ++ second) =
      .ok (ls ++ ms.map (·.shifted (first.toList.count '\n' + 1))) := by
  rw [read] at hfirst hsecond
  have hended := (readFrom_ended first 1).trans hfirst
  rw [read, Text.lines_joined, readFrom_append hended, Text.length_lines_ended,
    readFrom_shifted hsecond]
  rfl

end Script

end LedgerScript
