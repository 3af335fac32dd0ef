import LedgerScript.Proofs.Reading
import LedgerScript.Proofs.RoundTrip

/-!
# Tokens as they stand in a text

Every text is laid out in tokens with white space between, each spelled at its place, up to its
end or else up to a quote that no later quote closes. A text that is laid out scans to just these
tokens before anything that does not continue its last word, so the layout is the only one; and
an open quote is the only way in which scanning fails.

A quote in a literal closes it if an even number of backslashes stands in front of it. This is told
from the body as a whole, while the scanner takes backslashes in pairs from the left.
-/

set_option autoImplicit false

namespace LedgerScript

def Place.right (p : Place) (n : Nat) : Place := { p with column := p.column + n }

@[simp] theorem Place.right_column (p : Place) (n : Nat) : (p.right n).column = p.column + n := rfl

@[simp] theorem Place.right_right (p : Place) (m n : Nat) :
    (p.right m).right n = p.right (m + n) := by
  simp [right, Nat.add_assoc]

namespace Token

section Literals

def slashes (cs : List Char) : Nat := (cs.rtakeWhile (· = '\\')).length

/-- The character after this part of a literal does not stand for itself. -/
def Escapes (front : List Char) : Prop := Odd (slashes front)

/-- A quote after the body of a literal is the first one in it that is not escaped. -/
structure Closes (body : List Char) : Prop where
  closing : ¬ Escapes body
  first : ∀ front back, body = front ++ '"' :: back → Escapes front

/-- The text that the body of a literal stands for. -/
def decoded : List Char → List Char
  | [] => []
  | '\\' :: '"' :: rest => '"' :: decoded rest
  | '\\' :: '\\' :: rest => '\\' :: decoded rest
  | '\\' :: c :: rest => '\\' :: c :: decoded rest
  | c :: rest => c :: decoded rest

theorem slashes_cons (c : Char) (cs : List Char) :
    slashes (c :: cs) =
      if slashes cs = cs.length ∧ c = '\\' then slashes cs + 1 else slashes cs := by
  have hlength : (cs.reverse.takeWhile (· = '\\')).length = slashes cs := by
    simp [slashes, List.rtakeWhile]
  rw [slashes, List.rtakeWhile, List.reverse_cons, List.length_reverse, List.takeWhile_append,
    hlength, List.length_reverse]
  by_cases hall : slashes cs = cs.length <;> by_cases hc : c = '\\' <;>
    simp [hall, hc, hlength]

theorem slashes_le (cs : List Char) : slashes cs ≤ cs.length := by
  have hle : (cs.reverse.takeWhile (· = '\\')).length ≤ cs.reverse.length :=
    (List.takeWhile_prefix _).length_le
  rw [slashes, List.rtakeWhile, List.length_reverse]
  rwa [List.length_reverse] at hle

theorem escapes_pair (c : Char) (cs : List Char) : Escapes ('\\' :: c :: cs) ↔ Escapes cs := by
  have hle := slashes_le cs
  rw [Escapes, Escapes, slashes_cons, slashes_cons, Nat.odd_iff, Nat.odd_iff, List.length_cons]
  by_cases hc : slashes cs = cs.length ∧ c = '\\'
  · simp only [hc, and_self, if_true]
    omega
  · simp only [hc, if_false]
    rw [if_neg (by omega)]

theorem escapes_cons {c : Char} (hc : c ≠ '\\') (cs : List Char) :
    Escapes (c :: cs) ↔ Escapes cs := by
  rw [Escapes, Escapes, slashes_cons, if_neg (by simp [hc])]

theorem not_escapes_nil : ¬ Escapes [] := by
  simp [Escapes, slashes]

theorem escapes_slash : Escapes ['\\'] := by
  simp [Escapes, slashes, List.rtakeWhile]

theorem closes_nil : Closes [] where
  closing := not_escapes_nil
  first := by simp

theorem not_closes_quote (cs : List Char) : ¬ Closes ('"' :: cs) :=
  fun h => not_escapes_nil (h.first [] cs rfl)

theorem not_closes_slash : ¬ Closes ['\\'] := fun h => h.closing escapes_slash

theorem closes_cons {c : Char} (hquote : c ≠ '"') (hslash : c ≠ '\\') (cs : List Char) :
    Closes (c :: cs) ↔ Closes cs := by
  constructor
  · rintro ⟨closing, first⟩
    refine ⟨(escapes_cons hslash cs).not.mp closing, fun front back h => ?_⟩
    exact (escapes_cons hslash front).mp (first (c :: front) back (by rw [h]; rfl))
  · rintro ⟨closing, first⟩
    refine ⟨(escapes_cons hslash cs).not.mpr closing, fun front back h => ?_⟩
    cases front with
    | nil =>
      injection h with h
      exact absurd h hquote
    | cons d front =>
      injection h with hd h
      subst hd
      exact (escapes_cons hslash front).mpr (first front back h)

theorem closes_pair (c : Char) (cs : List Char) : Closes ('\\' :: c :: cs) ↔ Closes cs := by
  constructor
  · rintro ⟨closing, first⟩
    refine ⟨(escapes_pair c cs).not.mp closing, fun front back h => ?_⟩
    exact (escapes_pair c front).mp (first ('\\' :: c :: front) back (by rw [h]; rfl))
  · rintro ⟨closing, first⟩
    refine ⟨(escapes_pair c cs).not.mpr closing, fun front back h => ?_⟩
    obtain _ | ⟨d, _ | ⟨e, front⟩⟩ := front
    · injection h with h
      cases h
    · injection h with hd h
      subst hd
      exact escapes_slash
    · injection h with hd h
      injection h with he h
      subst hd he
      exact (escapes_pair c front).mpr (first front back h)

theorem decoded_pair (c : Char) (cs : List Char) :
    decoded ('\\' :: c :: cs) = unescaped c ++ decoded cs := by
  by_cases hquote : c = '"'
  · subst hquote
    rfl
  by_cases hslash : c = '\\'
  · subst hslash
    rfl
  rw [decoded.eq_4 _ _ hquote hslash]
  simp [unescaped, hquote, hslash]

theorem decoded_cons {c : Char} (hslash : c ≠ '\\') (cs : List Char) :
    decoded (c :: cs) = c :: decoded cs := by
  rw [decoded.eq_5] <;> simp [hslash]

/-- Induction over the body of a literal, by the characters that it escapes and the others. -/
@[elab_as_elim]
theorem closes_induction {P : List Char → Prop} {body : List Char} (closes : Closes body)
    (nil : P []) (pair : ∀ c cs, P cs → P ('\\' :: c :: cs))
    (plain : ∀ c cs, c ≠ '"' → c ≠ '\\' → P cs → P (c :: cs)) : P body := by
  fun_induction decoded body with
  | case1 => exact nil
  | case2 rest ih | case3 rest ih => exact pair _ rest (ih ((closes_pair _ rest).mp closes))
  | case4 c rest _ _ ih => exact pair c rest (ih ((closes_pair c rest).mp closes))
  | case5 c rest _ _ hpair ih =>
    have hquote : c ≠ '"' := by
      rintro rfl
      exact not_closes_quote rest closes
    have hslash : c ≠ '\\' := by
      rintro rfl
      cases rest with
      | nil => exact not_closes_slash closes
      | cons d more => exact hpair d more rfl rfl
    exact plain c rest hquote hslash (ih ((closes_cons hquote hslash rest).mp closes))

theorem quotedBody_closes {body : List Char} (closes : Closes body) (after : List Char) :
    quotedBody (body ++ '"' :: after) = some (decoded body, body.length + 1, after) := by
  refine closes_induction closes rfl (fun c cs ih => ?_) fun c cs hquote hslash ih => ?_
  · rw [List.cons_append, List.cons_append, quotedBody, ih, decoded_pair]
    rfl
  · rw [List.cons_append, quotedBody.eq_4, ih, decoded_cons hslash]
    · rfl
    · exact hquote
    · exact fun _ _ h => absurd h hslash

theorem exists_body_of_quotedBody {cs text after : List Char} {n : Nat}
    (h : quotedBody cs = some (text, n, after)) :
    ∃ body, cs = body ++ '"' :: after ∧ Closes body ∧ decoded body = text ∧
      n = body.length + 1 := by
  fun_induction quotedBody cs generalizing text n after with
  | case1 => cases h
  | case2 rest =>
    cases h
    exact ⟨[], rfl, closes_nil, rfl, rfl⟩
  | case3 c rest ih =>
    obtain ⟨⟨t, m, a⟩, hrest, heq⟩ := Option.map_eq_some_iff.mp h
    cases heq
    obtain ⟨body, rfl, closes, rfl, rfl⟩ := ih hrest
    exact ⟨'\\' :: c :: body, rfl, (closes_pair c body).mpr closes, decoded_pair c body, rfl⟩
  | case4 c rest hquote hpair ih =>
    obtain ⟨⟨t, m, a⟩, hrest, heq⟩ := Option.map_eq_some_iff.mp h
    cases heq
    obtain ⟨body, rfl, closes, rfl, rfl⟩ := ih hrest
    have hslash : c ≠ '\\' := by
      rintro rfl
      cases body with
      | nil => exact hpair '"' after rfl rfl
      | cons d more => exact hpair d (more ++ '"' :: after) rfl rfl
    exact ⟨c :: body, rfl, (closes_cons hquote hslash body).mpr closes, decoded_cons hslash body,
      rfl⟩

theorem quotedBody_eq_none_iff {cs : List Char} :
    quotedBody cs = none ↔ ∀ body after, cs = body ++ '"' :: after → ¬ Closes body := by
  constructor
  · rintro h body after rfl closes
    rw [quotedBody_closes closes] at h
    cases h
  · intro never
    cases h : quotedBody cs with
    | none => rfl
    | some read =>
      obtain ⟨body, rfl, closes, -⟩ := exists_body_of_quotedBody h
      exact absurd closes (never body _ rfl)

end Literals

/-- How a token is spelled: a word as it is, a literal by a body that stands for its text. -/
inductive Spells : Token → List Char → Prop
  | word {cs : List Char} (filled : cs ≠ []) (plain : ∀ c ∈ cs, isWordChar c = true) :
      Spells (.word (String.ofList cs)) cs
  | quoted {body : List Char} (closes : Closes body) :
      Spells (.quoted (String.ofList (decoded body))) ('"' :: body ++ ['"'])
  | opening : Spells .opening ['(']
  | closing : Spells .closing [')']

/-- A text whose first character stands at the place is laid out in these tokens: each is spelled
at its own place, a word up to a character that ends it, with white space around them. -/
inductive Laid : Place → List Char → List Lexeme → Prop
  | blanks {p : Place} {gap : List Char} (blank : ∀ c ∈ gap, Text.isBlank c = true) : Laid p gap []
  | token {p : Place} {gap spelling rest : List Char} {token : Token} {ls : List Lexeme}
      (blank : ∀ c ∈ gap, Text.isBlank c = true) (spells : Spells token spelling)
      (ends : ∀ text, token = .word text → EndsWord rest)
      (more : Laid (p.right (gap.length + spelling.length)) rest ls) :
      Laid p (gap ++ spelling ++ rest) (⟨token, p.right gap.length⟩ :: ls)

/-- The quote after the front opens a literal, as only tokens stand before it, and no quote in the
rest closes that. -/
structure LeftOpen (cs front rest : List Char) : Prop where
  text : cs = front ++ '"' :: rest
  opens : ∃ ls, Laid ⟨1, 1⟩ front ls
  never : ∀ body after, rest = body ++ '"' :: after → ¬ Closes body

theorem scanFrom_blanks {gap : List Char} (blank : ∀ c ∈ gap, Text.isBlank c = true) (p : Place)
    (rest : List Char) : scanFrom p (gap ++ rest) = scanFrom (p.right gap.length) rest := by
  induction gap generalizing p with
  | nil => rfl
  | cons c gap ih =>
    obtain ⟨hc, hgap⟩ := List.forall_mem_cons.mp blank
    rw [List.cons_append, scanFrom_blank p c _ hc, ← Place.right, ih hgap, Place.right_right,
      List.length_cons, Nat.add_comm 1]

theorem scanFrom_spelled {token : Token} {spelling rest : List Char} (spells : Spells token spelling)
    (ends : ∀ text, token = .word text → EndsWord rest) (p : Place) :
    scanFrom p (spelling ++ rest) =
      (⟨token, p⟩ :: ·) <$> scanFrom (p.right spelling.length) rest := by
  cases spells with
  | @word cs filled plain =>
    obtain ⟨c, word, rfl⟩ := List.exists_cons_of_ne_nil filled
    obtain ⟨hc, hword⟩ := List.forall_mem_cons.mp plain
    rw [List.cons_append, scanFrom_word p c _ hc, List.takeWhile_append_of_pos hword,
      List.dropWhile_append_of_pos hword, takeWhile_of_endsWord rest (ends _ rfl),
      dropWhile_of_endsWord rest (ends _ rfl), List.append_nil]
    rfl
  | @quoted body closes =>
    have hbody := quotedBody_closes closes rest
    rw [List.cons_append, List.cons_append, List.append_assoc, List.singleton_append,
      scanFrom_quoted p _ _ _ _ hbody]
    simp [Place.right]
  | opening => exact scanFrom_opening p rest
  | closing => exact scanFrom_closing p rest

theorem Laid.blank {p : Place} {c : Char} {cs : List Char} {ls : List Lexeme}
    (hc : Text.isBlank c = true) (laid : Laid (p.right 1) cs ls) : Laid p (c :: cs) ls := by
  cases laid with
  | blanks blank => exact .blanks (List.forall_mem_cons.mpr ⟨hc, blank⟩)
  | @token _ gap spelling rest token ls blank spells ends more =>
    have hplace : (p.right 1).right gap.length = p.right (c :: gap).length := by
      rw [Place.right_right, List.length_cons, Nat.add_comm]
    rw [Place.right_right, ← Nat.add_assoc, Nat.add_comm 1, ← List.length_cons (a := c)] at more
    rw [hplace]
    exact .token (List.forall_mem_cons.mpr ⟨hc, blank⟩) spells ends more

theorem Laid.scanFrom_append {p : Place} {cs rest : List Char} {ls : List Lexeme}
    (laid : Laid p cs ls) (ends : EndsWord rest) :
    scanFrom p (cs ++ rest) = (ls ++ ·) <$> scanFrom (p.right cs.length) rest := by
  induction laid with
  | blanks blank =>
    rw [scanFrom_blanks blank]
    exact (id_map _).symm
  | @token p gap spelling back token ls blank spells tokenEnds more ih =>
    have hends (text : String) (htoken : token = .word text) : EndsWord (back ++ rest) := by
      have hback := tokenEnds text htoken
      cases back with
      | nil => exact ends
      | cons c back => exact endsWord_cons c _ (hback c rfl)
    rw [List.append_assoc, List.append_assoc, scanFrom_blanks blank, scanFrom_spelled spells hends,
      Place.right_right, ih, Place.right_right, ← comp_map, List.length_append, List.length_append]
    rfl

theorem Laid.scanFrom_eq {p : Place} {cs : List Char} {ls : List Lexeme} (laid : Laid p cs ls) :
    scanFrom p cs = .ok ls := by
  have h := laid.scanFrom_append endsWord_nil
  rw [List.append_nil, scanFrom_nil] at h
  rw [h]
  exact congrArg Except.ok (List.append_nil ls)

theorem Laid.spelled {p : Place} {token : Token} {spelling rest : List Char} {ls : List Lexeme}
    (spells : Spells token spelling) (ends : ∀ text, token = .word text → EndsWord rest)
    (laid : Laid (p.right spelling.length) rest ls) : Laid p (spelling ++ rest) (⟨token, p⟩ :: ls) := by
  rw [← Nat.zero_add spelling.length] at laid
  exact @Laid.token p [] spelling rest token ls nofun spells ends laid

theorem Laid.moved {p : Place} {cs : List Char} {ls : List Lexeme} (laid : Laid p cs ls)
    (q : Place) : ∃ ms, Laid q cs ms ∧ ms.map Lexeme.token = ls.map Lexeme.token := by
  induction laid generalizing q with
  | blanks blank => exact ⟨[], .blanks blank, rfl⟩
  | @token p gap spelling rest token ls blank spells ends more ih =>
    obtain ⟨ms, hms, htokens⟩ := ih (q.right (gap.length + spelling.length))
    exact ⟨_, .token blank spells ends hms, by simp [htokens]⟩

theorem Spells.length_pos {token : Token} {spelling : List Char} (spells : Spells token spelling) :
    0 < spelling.length := by
  cases spells with
  | word filled plain => exact List.length_pos_iff.mpr filled
  | _ => simp

theorem Laid.place_eq {p : Place} {cs : List Char} {ls : List Lexeme} (laid : Laid p cs ls) :
    ∀ l ∈ ls, ∃ front spelling back, cs = front ++ spelling ++ back ∧ Spells l.token spelling ∧
      l.place = p.right front.length := by
  induction laid with
  | blanks blank => simp
  | @token p gap spelling rest token ls blank spells ends more ih =>
    intro l hl
    rcases List.mem_cons.mp hl with rfl | hl
    · exact ⟨gap, spelling, rest, rfl, spells, rfl⟩
    · obtain ⟨front, other, back, rfl, hspells, hplace⟩ := ih l hl
      refine ⟨gap ++ spelling ++ front, other, back, by simp, hspells, ?_⟩
      simpa [Nat.add_assoc] using hplace

theorem Laid.columns_increasing {p : Place} {cs : List Char} {ls : List Lexeme}
    (laid : Laid p cs ls) : ls.Pairwise fun a b => a.place.column < b.place.column := by
  induction laid with
  | blanks blank => exact .nil
  | @token p gap spelling rest token ls blank spells ends more ih =>
    refine List.pairwise_cons.mpr ⟨fun l hl => ?_, ih⟩
    obtain ⟨front, _, _, -, -, hplace⟩ := more.place_eq l hl
    have hpos := spells.length_pos
    simp only [hplace, Place.right_column]
    omega

def Settled (cs : List Char) : Prop :=
  (∃ ls, Laid ⟨1, 1⟩ cs ls) ∨ ∃ front rest, LeftOpen cs front rest

theorem settled_blank {c : Char} (hc : Text.isBlank c = true) {cs : List Char}
    (h : Settled cs) : Settled (c :: cs) := by
  have longer {text : List Char} (laid : ∃ ls, Laid ⟨1, 1⟩ text ls) :
      ∃ ls, Laid ⟨1, 1⟩ (c :: text) ls := by
    obtain ⟨ls, laid⟩ := laid
    obtain ⟨ms, moved, -⟩ := laid.moved (Place.right ⟨1, 1⟩ 1)
    exact ⟨ms, moved.blank hc⟩
  rcases h with laid | ⟨front, rest, hopen⟩
  · exact .inl (longer laid)
  · exact .inr ⟨c :: front, rest, by rw [hopen.text]; rfl, longer hopen.opens, hopen.never⟩

theorem settled_spelled {token : Token} {spelling cs : List Char} (spells : Spells token spelling)
    (ends : ∀ text, token = .word text → EndsWord cs) (h : Settled cs) :
    Settled (spelling ++ cs) := by
  have longer {text : List Char} (laid : ∃ ls, Laid ⟨1, 1⟩ text ls)
      (textEnds : ∀ word, token = .word word → EndsWord text) :
      ∃ ls, Laid ⟨1, 1⟩ (spelling ++ text) ls := by
    obtain ⟨ls, laid⟩ := laid
    obtain ⟨ms, moved, -⟩ := laid.moved (Place.right ⟨1, 1⟩ spelling.length)
    exact ⟨_, moved.spelled spells textEnds⟩
  rcases h with laid | ⟨front, rest, hopen⟩
  · exact .inl (longer laid ends)
  · refine .inr ⟨spelling ++ front, rest, by rw [hopen.text, List.append_assoc],
      longer hopen.opens fun word hword => ?_, hopen.never⟩
    have hends := ends word hword
    rw [hopen.text] at hends
    cases front with
    | nil => exact endsWord_nil
    | cons c front => exact endsWord_cons c front (hends c rfl)

theorem endsWord_dropWhile (cs : List Char) : EndsWord (cs.dropWhile isWordChar) := by
  intro c hc
  have hhead := List.head?_dropWhile_not isWordChar cs
  rw [Option.mem_def.mp hc] at hhead
  simpa using hhead

theorem settled (cs : List Char) : Settled cs := by
  -- a token at a time, as the scanner goes
  induction cs using scan_induction with
  | nil => exact .inl ⟨[], .blanks nofun⟩
  | blank c rest hc ih => exact settled_blank hc ih
  | opening rest ih => exact settled_spelled .opening nofun ih
  | closing rest ih => exact settled_spelled .closing nofun ih
  | quoted rest text n after hbody ih =>
    obtain ⟨body, rfl, closes, -⟩ := exists_body_of_quotedBody hbody
    have h := settled_spelled (.quoted closes) nofun ih
    rwa [List.append_assoc] at h
  | unterminated rest hbody =>
    exact .inr ⟨[], rest, rfl, ⟨[], .blanks nofun⟩, quotedBody_eq_none_iff.mp hbody⟩
  | word c rest hc ih =>
    have plain : ∀ d ∈ c :: rest.takeWhile isWordChar, isWordChar d = true :=
      List.forall_mem_cons.mpr ⟨hc, fun d hd => List.mem_takeWhile_imp hd⟩
    have h := settled_spelled (.word (List.cons_ne_nil _ _) plain)
      (fun _ _ => endsWord_dropWhile rest) ih
    rwa [List.cons_append, List.takeWhile_append_dropWhile] at h

theorem LeftOpen.scanFrom_eq {cs front rest : List Char} (hopen : LeftOpen cs front rest)
    (p : Place) : scanFrom p cs = .error ⟨p.right front.length, .unterminatedQuote⟩ := by
  obtain ⟨ls, laid⟩ := hopen.opens
  obtain ⟨ms, moved, -⟩ := laid.moved p
  rw [hopen.text, moved.scanFrom_append (endsWord_cons '"' rest rfl),
    scanFrom_unterminated _ rest (quotedBody_eq_none_iff.mpr hopen.never)]
  rfl

theorem scanFrom_eq_ok_iff {p : Place} {cs : List Char} {ls : List Lexeme} :
    scanFrom p cs = .ok ls ↔ Laid p cs ls := by
  constructor
  · intro h
    rcases settled cs with ⟨ms, laid⟩ | ⟨front, rest, hopen⟩
    · obtain ⟨ks, moved, -⟩ := laid.moved p
      rw [moved.scanFrom_eq] at h
      cases h
      exact moved
    · rw [hopen.scanFrom_eq p] at h
      cases h
  · exact Laid.scanFrom_eq

theorem exists_error_iff {p : Place} {cs : List Char} :
    (∃ e, scanFrom p cs = .error e) ↔ ∃ front rest, LeftOpen cs front rest := by
  constructor
  · rintro ⟨e, h⟩
    rcases settled cs with ⟨ms, laid⟩ | hopen
    · obtain ⟨ks, moved, -⟩ := laid.moved p
      rw [moved.scanFrom_eq] at h
      cases h
    · exact hopen
  · rintro ⟨front, rest, hopen⟩
    exact ⟨_, hopen.scanFrom_eq p⟩

/-- Scanning loses nothing: it gives the tokens in which the text is laid out, each at the place
where it is spelled and further to the right than the one before it. It fails just if a quote is
left open, and at that quote. -/
theorem scan_exact (source : String) (line : Nat) :
    let cs := source.toList
    (∀ ls, scan source line = .ok ls ↔ Laid ⟨line, 1⟩ cs ls) ∧
    (∀ ls, scan source line = .ok ls →
      ls.Pairwise (fun a b => a.place.column < b.place.column) ∧
      ∀ l ∈ ls, ∃ front spelling back, cs = front ++ spelling ++ back ∧
        Spells l.token spelling ∧ l.place = ⟨line, front.length + 1⟩) ∧
    ((∃ e, scan source line = .error e) ↔ ∃ front rest, LeftOpen cs front rest) ∧
    ∀ front rest, LeftOpen cs front rest →
      scan source line = .error ⟨⟨line, front.length + 1⟩, .unterminatedQuote⟩ := by
  intro cs
  have hplace (n : Nat) : Place.right ⟨line, 1⟩ n = ⟨line, n + 1⟩ := by
    simp [Place.right, Nat.add_comm]
  refine ⟨fun ls => scanFrom_eq_ok_iff, fun ls h => ?_, exists_error_iff, fun front rest hopen => ?_⟩
  · have laid := scanFrom_eq_ok_iff.mp h
    refine ⟨laid.columns_increasing, fun l hl => ?_⟩
    obtain ⟨front, spelling, back, hcs, spells, hl⟩ := laid.place_eq l hl
    exact ⟨front, spelling, back, hcs, spells, hl.trans (hplace front.length)⟩
  · rw [scan, hopen.scanFrom_eq, hplace]

theorem scan_exact_escapes :
    scan "say\"a\\\\\" (" 7 = .ok [⟨.word "say", ⟨7, 1⟩⟩, ⟨.quoted "a\\", ⟨7, 4⟩⟩,
      ⟨.opening, ⟨7, 10⟩⟩] ∧
    scan "say \"a\\\"" 7 = .error ⟨⟨7, 5⟩, .unterminatedQuote⟩ := by
  have word : Spells (.word "say") ['s', 'a', 'y'] := .word (by simp) (List.all_eq_true.mp rfl)
  have closes : Closes ['a', '\\', '\\'] :=
    (closes_cons (by decide) (by decide) _).mpr ((closes_pair '\\' []).mpr closes_nil)
  have literal : Spells (.quoted "a\\") ['"', 'a', '\\', '\\', '"'] := .quoted closes
  have rest : Laid ⟨7, 11⟩ [] [] := .blanks (by simp)
  have last : Laid ⟨7, 10⟩ ['('] [⟨.opening, ⟨7, 10⟩⟩] := Laid.spelled .opening nofun rest
  have laid : Laid ⟨7, 1⟩ ['s', 'a', 'y', '"', 'a', '\\', '\\', '"', ' ', '(']
      [⟨.word "say", ⟨7, 1⟩⟩, ⟨.quoted "a\\", ⟨7, 4⟩⟩, ⟨.opening, ⟨7, 10⟩⟩] :=
    Laid.spelled word (fun _ _ => endsWord_cons '"' _ rfl)
      (Laid.spelled literal nofun (Laid.blank rfl last))
  have gap : Laid ⟨1, 4⟩ [' '] [] := .blanks (List.all_eq_true.mp rfl)
  have opens : Laid ⟨1, 1⟩ ['s', 'a', 'y', ' '] [⟨.word "say", ⟨1, 1⟩⟩] :=
    Laid.spelled word (fun _ _ => endsWord_cons ' ' [] rfl) gap
  have hopen : LeftOpen ['s', 'a', 'y', ' ', '"', 'a', '\\', '"'] ['s', 'a', 'y', ' ']
      ['a', '\\', '"'] :=
    ⟨rfl, ⟨_, opens⟩, quotedBody_eq_none_iff.mp rfl⟩
  exact ⟨((scan_exact "say\"a\\\\\" (" 7).1 _).mpr laid,
    (scan_exact "say \"a\\\"" 7).2.2.2 _ _ hopen⟩

end Token

end LedgerScript
