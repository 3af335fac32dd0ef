import LedgerScript.Syntax.Reading

/-!
# Printed events read back

The written form of an event and the tokens of a text meet in their marks: words without
regard to quotes, and parentheses. A printed event scans to its marks whatever follows it, as
long as a word at its end is not continued, and the marks of an event build that event under
any open groups. So a printed line reads back as the tokens it was printed from, and no two
events share a text.
-/

set_option autoImplicit false

namespace LedgerScript

/-- A token as the tree builder sees it: quoted or bare, a word is its text. -/
inductive Mark where
  | word (text : String)
  | opening
  | closing
  deriving DecidableEq

def Token.mark : Token → Mark
  | .word s => .word s
  | .quoted s => .word s
  | .opening => .opening
  | .closing => .closing

def Lexeme.mark (l : Lexeme) : Mark := l.token.mark

namespace Event

mutual
def marks : Event → List Mark
  | .atom s => [.word s]
  | .list items => .opening :: marksAll items ++ [.closing]

def marksAll : List Event → List Mark
  | [] => []
  | e :: rest => marks e ++ marksAll rest
end

theorem build_word (groups : List Group) (items : List Event) (l : Lexeme)
    (rest : List Lexeme) (s : String) (h : l.mark = .word s) :
    build groups items (l :: rest) = build groups (.atom s :: items) rest := by
  obtain ⟨token, place⟩ := l
  cases token with
  | word t => cases h; rfl
  | quoted t => cases h; rfl
  | opening => cases h
  | closing => cases h

theorem build_opening (groups : List Group) (items : List Event) (l : Lexeme)
    (rest : List Lexeme) (h : l.mark = .opening) :
    build groups items (l :: rest) = build (⟨l.place, items⟩ :: groups) [] rest := by
  obtain ⟨token, place⟩ := l
  cases token with
  | opening => rfl
  | word t => cases h
  | quoted t => cases h
  | closing => cases h

theorem build_closing (g : Group) (groups : List Group) (items : List Event) (l : Lexeme)
    (rest : List Lexeme) (h : l.mark = .closing) :
    build (g :: groups) items (l :: rest) =
      build groups (.list items.reverse :: g.before) rest := by
  obtain ⟨token, place⟩ := l
  cases token with
  | closing => rfl
  | word t => cases h
  | quoted t => cases h
  | opening => cases h

mutual
theorem build_marks (e : Event) (groups : List Group) (items : List Event)
    (ls rest : List Lexeme) (h : ls.map Lexeme.mark = e.marks) :
    build groups items (ls ++ rest) = build groups (e :: items) rest := by
  match e with
  | .atom s =>
    rw [marks, List.map_eq_cons_iff] at h
    obtain ⟨l, tail, rfl, hl, htail⟩ := h
    rw [List.map_eq_nil_iff.mp htail]
    exact build_word groups items l rest s hl
  | .list es =>
    rw [marks, List.cons_append, List.map_eq_cons_iff] at h
    obtain ⟨o, tail, rfl, ho, htail⟩ := h
    obtain ⟨inner, last, rfl, hinner, hlast⟩ := List.map_eq_append_iff.mp htail
    obtain ⟨c, beyond, rfl, hc, hbeyond⟩ := List.map_eq_cons_iff.mp hlast
    rw [List.map_eq_nil_iff.mp hbeyond, List.cons_append, build_opening _ _ _ _ ho,
      List.append_assoc, build_marksAll es _ _ inner _ hinner, List.cons_append,
      build_closing _ _ _ _ _ hc]
    simp only [List.append_nil, List.reverse_reverse, List.nil_append]

theorem build_marksAll (es : List Event) (groups : List Group) (items : List Event)
    (ls rest : List Lexeme) (h : ls.map Lexeme.mark = marksAll es) :
    build groups items (ls ++ rest) = build groups (es.reverse ++ items) rest := by
  match es with
  | [] =>
    rw [marksAll, List.map_eq_nil_iff] at h
    rw [h]
    rfl
  | e :: es =>
    obtain ⟨front, back, rfl, hfront, hback⟩ := List.map_eq_append_iff.mp h
    rw [List.append_assoc, build_marks e _ _ front _ hfront,
      build_marksAll es _ _ back _ hback, List.reverse_cons, List.append_assoc]
    rfl
end

theorem ofLexemes_marksAll (es : List Event) (ls : List Lexeme)
    (h : ls.map Lexeme.mark = marksAll es) : ofLexemes ls = .ok (.list es) := by
  have hb := build_marksAll es [] [] ls [] h
  rw [List.append_nil] at hb
  rw [ofLexemes, hb, List.append_nil, build, List.reverse_reverse]
  rfl

end Event

namespace Token

/-- From any place, the text scans to tokens with these marks. -/
def Scans (cs : List Char) (ms : List Mark) : Prop :=
  ∀ place, ∃ ls, scanFrom place cs = .ok ls ∧ ls.map Lexeme.mark = ms

theorem scans_nil : Scans [] [] := fun place => ⟨[], by rw [scanFrom.eq_def], rfl⟩

theorem scans_blank (c : Char) (cs : List Char) (ms : List Mark)
    (hc : Text.isBlank c = true) (h : Scans cs ms) : Scans (c :: cs) ms := by
  intro place
  rw [scanFrom_blank place c cs hc]
  exact h _

theorem scans_token (token : Token) (columns : Nat) (cs rest : List Char) (ms : List Mark)
    (step : ∀ place, scanFrom place cs =
      (⟨token, place⟩ :: ·) <$> scanFrom { place with column := place.column + columns } rest)
    (h : Scans rest ms) : Scans cs (token.mark :: ms) := by
  intro place
  obtain ⟨ls, hls, hms⟩ := h { place with column := place.column + columns }
  refine ⟨⟨token, place⟩ :: ls, ?_, ?_⟩
  · rw [step place, hls]
    rfl
  · rw [List.map_cons, hms]
    rfl

theorem scans_opening (cs : List Char) (ms : List Mark) (h : Scans cs ms) :
    Scans ('(' :: cs) (.opening :: ms) :=
  scans_token .opening 1 _ cs ms (fun place => scanFrom_opening place cs) h

theorem scans_closing (cs : List Char) (ms : List Mark) (h : Scans cs ms) :
    Scans (')' :: cs) (.closing :: ms) :=
  scans_token .closing 1 _ cs ms (fun place => scanFrom_closing place cs) h

theorem quotedBody_escaped (cs after : List Char) :
    quotedBody (Event.escaped cs ++ '"' :: after) =
      some (cs, (Event.escaped cs).length + 1, after) := by
  induction cs with
  | nil => rfl
  | cons c rest ih =>
    by_cases h : (c = '"' || c = '\\') = true
    · rw [Event.escaped, if_pos h, List.cons_append, List.cons_append, quotedBody, ih]
      simp only [unescaped, if_pos h]
      rfl
    · rw [Event.escaped, if_neg h, List.cons_append, quotedBody.eq_4, ih]
      · rfl
      · intro hc; simp [hc] at h
      · intro _ _ hc; simp [hc] at h

theorem scans_quoted (body cs : List Char) (ms : List Mark) (h : Scans cs ms) :
    Scans ('"' :: Event.escaped body ++ '"' :: cs) (.word (String.ofList body) :: ms) := by
  apply scans_token (.quoted (String.ofList body)) ((Event.escaped body).length + 1 + 1) _ cs ms
  · intro place
    rw [List.cons_append]
    exact scanFrom_quoted place _ body cs _ (quotedBody_escaped body cs)
  · exact h

def EndsWord (cs : List Char) : Prop := ∀ c ∈ cs.head?, isWordChar c = false

theorem endsWord_nil : EndsWord [] := by
  intro c hc
  cases hc

theorem endsWord_cons (c : Char) (cs : List Char) (h : isWordChar c = false) :
    EndsWord (c :: cs) := by
  intro d hd
  cases hd
  exact h

theorem takeWhile_of_endsWord (cs : List Char) (h : EndsWord cs) :
    cs.takeWhile isWordChar = [] := by
  cases cs with
  | nil => rfl
  | cons c rest => rw [List.takeWhile_cons, h c rfl]; rfl

theorem dropWhile_of_endsWord (cs : List Char) (h : EndsWord cs) :
    cs.dropWhile isWordChar = cs := by
  cases cs with
  | nil => rfl
  | cons c rest => rw [List.dropWhile_cons, h c rfl]; rfl

theorem scans_word (c : Char) (word cs : List Char) (ms : List Mark)
    (hword : ∀ d ∈ c :: word, isWordChar d = true) (hcs : EndsWord cs) (h : Scans cs ms) :
    Scans (c :: word ++ cs) (.word (String.ofList (c :: word)) :: ms) := by
  have hc := hword c List.mem_cons_self
  have hrest : ∀ d ∈ word, isWordChar d = true := fun d hd => hword d (List.mem_cons_of_mem c hd)
  have htake : (word ++ cs).takeWhile isWordChar = word := by
    rw [List.takeWhile_append_of_pos hrest, takeWhile_of_endsWord cs hcs, List.append_nil]
  have hdrop : (word ++ cs).dropWhile isWordChar = cs := by
    rw [List.dropWhile_append_of_pos hrest, dropWhile_of_endsWord cs hcs]
  apply scans_token (.word (String.ofList (c :: word))) (c :: word).length _ cs ms
  · intro place
    rw [List.cons_append, scanFrom_word place c _ hc, htake, hdrop]
  · exact h

theorem isWordChar_of_not_needsQuotes (cs : List Char) (h : Event.needsQuotes cs = false) :
    ∀ c ∈ cs, isWordChar c = true := by
  intro c hc
  simp only [Event.needsQuotes, Bool.or_eq_false_iff, List.any_eq_false] at h
  have hd := h.2 c hc
  simp only [Bool.or_eq_true, not_or] at hd
  simp [isWordChar, hd.1]

theorem scans_atomChars (s cs : List Char) (ms : List Mark) (hcs : EndsWord cs)
    (h : Scans cs ms) : Scans (Event.atomChars s ++ cs) (.word (String.ofList s) :: ms) := by
  cases hq : Event.needsQuotes s with
  | true =>
    rw [Event.atomChars, if_pos hq, List.append_assoc]
    exact scans_quoted s cs ms h
  | false =>
    rw [Event.atomChars, if_neg (by simp [hq])]
    cases s with
    | nil => cases hq
    | cons c word => exact scans_word c word cs ms (isWordChar_of_not_needsQuotes _ hq) hcs h

mutual
/-- A printed event scans to its marks before any text that does not continue a word. -/
theorem scans_chars (e : Event) (cs : List Char) (ms : List Mark) (hcs : EndsWord cs)
    (h : Scans cs ms) : Scans (e.chars ++ cs) (e.marks ++ ms) := by
  match e with
  | .atom s =>
    have hs := scans_atomChars s.toList cs ms hcs h
    rwa [String.ofList_toList] at hs
  | .list items =>
    have hclose := scans_closing cs ms h
    have hitems := scans_charsAll items _ _ (endsWord_cons ')' cs rfl) hclose
    have hopen := scans_opening _ _ hitems
    simpa only [Event.chars, Event.marks, List.cons_append, List.append_assoc,
      List.nil_append] using hopen

theorem scans_charsAll (es : List Event) (cs : List Char) (ms : List Mark)
    (hcs : EndsWord cs) (h : Scans cs ms) :
    Scans (Event.charsAll es ++ cs) (Event.marksAll es ++ ms) := by
  match es with
  | [] => exact h
  | [e] =>
    rw [Event.charsAll, Event.marksAll, Event.marksAll, List.append_nil]
    exact scans_chars e cs ms hcs h
  | e :: f :: rest =>
    have hrest := scans_charsAll (f :: rest) cs ms hcs h
    have hblank := scans_blank ' ' _ _ rfl hrest
    have he := scans_chars e _ _ (endsWord_cons ' ' _ rfl) hblank
    rw [Event.charsAll, Event.marksAll, List.append_assoc, List.append_assoc]
    exact he
end

end Token

namespace Event

theorem ofLine_charsAll (es : List Event) :
    ofLine (String.ofList (charsAll es)) = .ok (.list es) := by
  obtain ⟨ls, hls, hms⟩ :=
    Token.scans_charsAll es [] [] Token.endsWord_nil Token.scans_nil ⟨1, 1⟩
  rw [List.append_nil] at hls hms
  rw [ofLine, ofLineAt, Token.scan, String.toList_ofList, hls]
  exact ofLexemes_marksAll es ls hms

theorem text_eq_charsAll (e : Event) : e.text = String.ofList (charsAll [e]) := rfl

/-- Reading inverts printing. A printed line gives the list of the tokens it was printed
from, a printed event the list of that event alone; hence a list comes back from its line as
it was, and the text of an event determines it. -/
theorem ofLine_of_printed :
    (∀ e : Event, ofLine e.line = .ok (.list e.tokens) ∧ ofLine e.text = .ok (.list [e])) ∧
      (∀ items : List Event, ofLine (Event.list items).line = .ok (.list items)) ∧
      Function.Injective Event.text := by
  have hline (e : Event) : ofLine e.line = .ok (.list e.tokens) := ofLine_charsAll e.tokens
  have htext (e : Event) : ofLine e.text = .ok (.list [e]) := by
    rw [text_eq_charsAll]
    exact ofLine_charsAll [e]
  refine ⟨fun e => ⟨hline e, htext e⟩, fun items => hline (.list items), ?_⟩
  intro e f hef
  have h := htext e
  rw [hef, htext f] at h
  injection h with h
  injection h with h
  injection h with h
  exact h.symm

end Event

end LedgerScript
