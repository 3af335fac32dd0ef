import LedgerScript.Proofs.Scripts
import LedgerScript.Text.Doc

/-!
# Clean documentation texts

A clean text goes from the first to the last line that is not blank. The least indentation of such
lines goes from each of them, and so do the blanks at its end; blank lines in between become empty.
No line of a clean text has anything left to lose, and its lines are those that it was joined from:
it is its own clean text.
-/

set_option autoImplicit false

namespace LedgerScript.Text

/-- The lines of a text: what stands between its newlines, without the carriage return before a
newline. After the last newline there is a line just if something stands there. -/
def Lined (text : String) (lines : List (List Char)) : Prop :=
  ∃ front last, text.toList.splitOn '\n' = front ++ [last] ∧
    lines = front.map withoutReturn ++ [last].filter (· ≠ [])

def Blank (line : List Char) : Prop := ∀ c ∈ line, isBlank c = true

def indentations (lines : List (List Char)) : Set Nat :=
  {n | ∃ line ∈ lines, ¬ Blank line ∧ indentation line = n}

/-- What is left of a line when an indentation of `m` characters goes: nothing of a blank line,
and of any other what stands between these characters and the blanks at its end. -/
inductive Dedented (m : Nat) (line : List Char) : List Char → Prop where
  | blank (blank : Blank line) : Dedented m line []
  | filled {indent kept gap : List Char} (split : line = indent ++ (kept ++ gap))
      (before : Blank indent) (length : indent.length = m)
      (last : ∃ c ∈ kept.getLast?, isBlank c = false) (after : Blank gap) : Dedented m line kept

/-- What is left of the lines of a text: nothing if all are blank, and otherwise each line from the
first to the last that is not, without the least indentation of all that are not. -/
inductive Cleaned (lines : List (List Char)) : List (List Char) → Prop where
  | blank (blank : ∀ line ∈ lines, Blank line) : Cleaned lines []
  | filled {front body back kept : List (List Char)} {m : Nat}
      (split : lines = front ++ (body ++ back)) (before : ∀ line ∈ front, Blank line)
      (first : ∃ line ∈ body.head?, ¬ Blank line) (last : ∃ line ∈ body.getLast?, ¬ Blank line)
      (after : ∀ line ∈ back, Blank line) (least : IsLeast (indentations lines) m)
      (each : List.Forall₂ (Dedented m) body kept) : Cleaned lines kept

section Ends

variable {α : Type*} {p : α → Bool} {front kept back : List α}

theorem rdropWhile_append_of_pos (last : ∃ x ∈ kept.getLast?, p x = false)
    (after : ∀ x ∈ back, p x = true) : (kept ++ back).rdropWhile p = kept := by
  obtain ⟨x, hx, hp⟩ := last
  obtain ⟨init, rfl⟩ := List.getLast?_eq_some_iff.mp hx
  have hback : ∀ x ∈ back.reverse, p x = true := fun x hx => after x (List.mem_reverse.mp hx)
  rw [List.rdropWhile, List.reverse_append, List.dropWhile_append_of_pos hback,
    List.reverse_concat, List.dropWhile_cons_of_neg (by simp [hp]), ← List.reverse_concat,
    List.reverse_reverse]

theorem dropWhile_append_of_neg (before : ∀ x ∈ front, p x = true)
    (first : ∃ x ∈ kept.head?, p x = false) :
    (front ++ (kept ++ back)).dropWhile p = kept ++ back := by
  obtain ⟨x, hx, hp⟩ := first
  obtain ⟨rest, rfl⟩ := List.head?_eq_some_iff.mp hx
  rw [List.dropWhile_append_of_pos before, List.cons_append,
    List.dropWhile_cons_of_neg (by simp [hp])]

theorem exists_trailing {xs : List α} (filled : ∃ x ∈ xs, p x = false) :
    ∃ init trailing, xs = init ++ trailing ∧ (∃ x ∈ init.getLast?, p x = false) ∧
      ∀ x ∈ trailing, p x = true := by
  have hne : xs.rdropWhile p ≠ [] := by
    rw [ne_eq, List.rdropWhile_eq_nil_iff]
    obtain ⟨x, hx, hp⟩ := filled
    exact fun h => absurd (h x hx) (by simp [hp])
  refine ⟨xs.rdropWhile p, xs.rtakeWhile p, List.rdropWhile_append_rtakeWhile.symm,
    ⟨_, List.getLast?_eq_some_getLast hne, ?_⟩, fun x => List.mem_rtakeWhile_imp⟩
  exact Bool.eq_false_iff.mpr (List.rdropWhile_last_not p xs hne)

theorem exists_enclosed {xs : List α} (filled : ∃ x ∈ xs, p x = false) :
    ∃ front body back, xs = front ++ (body ++ back) ∧ (∀ x ∈ front, p x = true) ∧
      (∃ x ∈ body.head?, p x = false) ∧ (∃ x ∈ body.getLast?, p x = false) ∧
      ∀ x ∈ back, p x = true := by
  obtain ⟨init, back, rfl, ⟨x, hx, hp⟩, after⟩ := exists_trailing filled
  have hne : init.dropWhile p ≠ [] := by
    rw [ne_eq, List.dropWhile_eq_nil_iff]
    exact fun h => absurd (h x (List.mem_of_mem_getLast? hx)) (by simp [hp])
  refine ⟨init.takeWhile p, init.dropWhile p, back, ?_, fun x => List.mem_takeWhile_imp,
    ⟨_, List.head?_eq_some_head hne, ?_⟩, ⟨x, ?_, hp⟩, after⟩
  · rw [← List.append_assoc, List.takeWhile_append_dropWhile]
  · exact List.head_dropWhile_not p hne
  · rwa [← List.takeWhile_append_dropWhile (p := p) (l := init),
      List.getLast?_append_of_ne_nil _ hne] at hx

variable {β : Type*} {f : α → β} {P : α → Prop} {Q : β → Prop} {xs : List α}

theorem exists_head?_map (first : ∃ x ∈ xs.head?, P x) (kept : ∀ x ∈ xs, P x → Q (f x)) :
    ∃ y ∈ (xs.map f).head?, Q y := by
  obtain ⟨x, hx, hP⟩ := first
  rw [List.head?_map]
  exact ⟨f x, Option.mem_map_of_mem f hx, kept x (List.mem_of_mem_head? hx) hP⟩

theorem exists_getLast?_map (last : ∃ x ∈ xs.getLast?, P x) (kept : ∀ x ∈ xs, P x → Q (f x)) :
    ∃ y ∈ (xs.map f).getLast?, Q y := by
  obtain ⟨x, hx, hP⟩ := last
  rw [List.getLast?_map]
  exact ⟨f x, Option.mem_map_of_mem f hx, kept x (List.mem_of_mem_getLast? hx) hP⟩

end Ends

theorem blank_nil : Blank [] := by simp [Blank]

theorem not_blank_of_last {line : List Char} (last : ∃ c ∈ line.getLast?, isBlank c = false) :
    ¬ Blank line := by
  obtain ⟨c, hc, hblank⟩ := last
  intro blank
  rw [blank c (List.mem_of_mem_getLast? hc)] at hblank
  cases hblank

theorem isBlankLine_iff {line : List Char} : isBlankLine line = true ↔ Blank line := by
  rw [isBlankLine, List.isEmpty_iff]
  constructor
  · intro empty c hc
    obtain ⟨front, back, hline, hfront, hback⟩ := exists_trim line
    rw [hline, empty, List.nil_append, List.mem_append] at hc
    exact hc.elim (hfront c) (hback c)
  · intro blank
    rw [trim, trimStart, List.dropWhile_eq_nil_iff.mpr blank]
    rfl

theorem isBlankLine_eq_false_iff {line : List Char} :
    isBlankLine line = false ↔ ¬ Blank line := by
  rw [← isBlankLine_iff, Bool.not_eq_true]

section Indentation

theorem indentation_append_of_blank {indent : List Char} (blank : Blank indent) (rest : List Char) :
    indentation (indent ++ rest) = indent.length + indentation rest := by
  rw [indentation, List.takeWhile_append_of_pos blank, List.length_append]
  rfl

theorem indentation_le_append (cs rest : List Char) :
    indentation cs ≤ indentation (cs ++ rest) := by
  rw [indentation, indentation, List.takeWhile_append]
  split
  · rw [List.length_append]
    omega
  · exact Nat.le_refl _

theorem blank_take {n : Nat} {line : List Char} (h : n ≤ indentation line) :
    Blank (line.take n) := by
  intro c hc
  have hc' := List.take_subset_take_left line h hc
  rw [indentation, ← List.prefix_iff_eq_take.mp (List.takeWhile_prefix isBlank)] at hc'
  exact List.mem_takeWhile_imp hc'

theorem isLeast_indentations_iff {lines : List (List Char)} {m : Nat} :
    IsLeast (indentations lines) m ↔
      ((lines.filter (!isBlankLine ·)).map indentation).min? = some m := by
  have hmem (n : Nat) :
      n ∈ (lines.filter (!isBlankLine ·)).map indentation ↔ n ∈ indentations lines := by
    simp [indentations, ← isBlankLine_iff, and_assoc]
  rw [List.min?_eq_some_iff, hmem]
  simp only [hmem]
  rfl

theorem commonIndentation_eq {lines : List (List Char)} {m : Nat}
    (least : IsLeast (indentations lines) m) : commonIndentation lines = m := by
  rw [commonIndentation, isLeast_indentations_iff.mp least]
  rfl

end Indentation

namespace Dedented

variable {m : Nat} {line kept : List Char}

theorem cleanLine_eq (h : Dedented m line kept) : cleanLine m line = kept := by
  rw [cleanLine, dedent_eq_drop]
  cases h with
  | blank blank =>
    exact List.rdropWhile_eq_nil_iff.mpr fun c hc => blank c (List.mem_of_mem_drop hc)
  | filled split before length last after =>
    subst split length
    rw [indentation_append_of_blank before, Nat.min_eq_left (Nat.le_add_right _ _),
      List.drop_left]
    exact rdropWhile_append_of_pos last after

theorem subset (h : Dedented m line kept) : kept ⊆ line := by
  cases h with
  | blank blank => exact List.nil_subset line
  | filled split before length last after =>
    rw [split]
    exact fun c hc => List.mem_append_right _ (List.mem_append_left _ hc)

theorem blank_iff (h : Dedented m line kept) : Blank kept ↔ Blank line := by
  refine ⟨fun hkept => ?_, fun blank c hc => blank c (h.subset hc)⟩
  cases h with
  | blank blank => exact blank
  | filled split before length last after => exact absurd hkept (not_blank_of_last last)

theorem eq_nil_iff (h : Dedented m line kept) : kept = [] ↔ Blank line := by
  refine ⟨fun hnil => h.blank_iff.mp (hnil ▸ blank_nil), fun blank => ?_⟩
  have hkept := h.blank_iff.mpr blank
  cases h with
  | blank blank => rfl
  | filled split before length last after => exact absurd hkept (not_blank_of_last last)

theorem indentation_eq_zero (h : Dedented m line kept) (least : indentation line = m) :
    indentation kept = 0 := by
  cases h with
  | blank blank => rfl
  | @filled _ _ gap split before length last after =>
    have hle := indentation_le_append kept gap
    rw [split, indentation_append_of_blank before, length] at least
    omega

theorem again (h : Dedented m line kept) : Dedented 0 kept kept := by
  cases h with
  | blank blank => exact .blank blank_nil
  | filled split before length last after =>
    exact .filled (by rw [List.append_nil, List.nil_append]) blank_nil rfl last blank_nil

theorem withoutReturn_eq (h : Dedented m line kept) : withoutReturn kept = kept := by
  cases h with
  | blank blank => rfl
  | filled split before length last after =>
    obtain ⟨c, hc, hblank⟩ := last
    refine if_neg fun hreturn => ?_
    rw [Option.mem_unique hc hreturn] at hblank
    exact absurd hblank (by decide)

end Dedented

theorem dedented_cleanLine {m : Nat} {line : List Char}
    (enough : ¬ Blank line → m ≤ indentation line) : Dedented m line (cleanLine m line) := by
  by_cases blank : Blank line
  · have h : Dedented m line [] := .blank blank
    rwa [h.cleanLine_eq]
  · have hm := enough blank
    have filled : ∃ c ∈ line.drop m, isBlank c = false := by
      by_contra! hdrop
      refine blank fun c hc => ?_
      rw [← List.take_append_drop m line, List.mem_append] at hc
      exact hc.elim (blank_take hm c) fun hc => Bool.of_not_eq_false (hdrop c hc)
    obtain ⟨kept, gap, hdrop, last, after⟩ := exists_trailing filled
    have h : Dedented m line kept := by
      refine .filled ?_ (blank_take hm) ?_ last after
      · rw [← hdrop, List.take_append_drop]
      · exact List.length_take_of_le (hm.trans (List.takeWhile_prefix isBlank).length_le)
    rwa [h.cleanLine_eq]

theorem forall₂_dedented_iff {m : Nat} {body kept : List (List Char)} :
    List.Forall₂ (Dedented m) body kept ↔
      body.map (cleanLine m) = kept ∧ ∀ line ∈ body, Dedented m line (cleanLine m line) := by
  constructor
  · intro each
    have hkept : body.map (cleanLine m) = kept := by
      rw [← List.forall₂_eq_eq_eq, List.forall₂_map_left_iff]
      exact each.imp fun _ _ => Dedented.cleanLine_eq
    subst hkept
    rw [List.forall₂_map_right_iff, List.forall₂_same] at each
    exact ⟨rfl, each⟩
  · rintro ⟨rfl, each⟩
    rw [List.forall₂_map_right_iff, List.forall₂_same]
    exact each

theorem dropOuterEmpty_of_empty {lines : List (List Char)} (empty : ∀ line ∈ lines, line = []) :
    dropOuterEmpty lines = [] := by
  have hdrop : lines.dropWhile List.isEmpty = [] :=
    List.dropWhile_eq_nil_iff.mpr fun line hline => List.isEmpty_iff.mpr (empty line hline)
  rw [dropOuterEmpty, hdrop]
  rfl

theorem dropOuterEmpty_enclosed {front body back : List (List Char)}
    (before : ∀ line ∈ front, line = []) (first : ∃ line ∈ body.head?, line ≠ [])
    (last : ∃ line ∈ body.getLast?, line ≠ []) (after : ∀ line ∈ back, line = []) :
    dropOuterEmpty (front ++ (body ++ back)) = body := by
  simp only [← List.isEmpty_iff, ← Bool.eq_false_iff, ne_eq] at before first last after
  rw [dropOuterEmpty, dropWhile_append_of_neg before first]
  exact rdropWhile_append_of_pos last after

namespace Cleaned

variable {lines kept : List (List Char)}

theorem cleanLines_eq (h : Cleaned lines kept) : cleanLines lines = kept := by
  have emptied {m : Nat} {ls : List (List Char)} (blank : ∀ line ∈ ls, Blank line) :
      ∀ line ∈ ls.map (cleanLine m), line = [] :=
    List.forall_mem_map.mpr fun line hline => (Dedented.blank (blank line hline)).cleanLine_eq
  rw [cleanLines]
  cases h with
  | blank blank => exact dropOuterEmpty_of_empty (emptied blank)
  | @filled _ body _ _ m split before first last after least each =>
    obtain ⟨rfl, dedented⟩ := forall₂_dedented_iff.mp each
    have shown (line : List Char) (hline : line ∈ body) (filled : ¬ Blank line) :
        cleanLine m line ≠ [] :=
      mt (dedented line hline).eq_nil_iff.mp filled
    rw [commonIndentation_eq least, split, List.map_append, List.map_append]
    exact dropOuterEmpty_enclosed (emptied before) (exists_head?_map first shown)
      (exists_getLast?_map last shown) (emptied after)

theorem again (h : Cleaned lines kept) : Cleaned kept kept := by
  cases h with
  | blank blank => exact .blank (List.forall_mem_nil _)
  | @filled _ body _ _ m split before first last after least each =>
    obtain ⟨rfl, dedented⟩ := forall₂_dedented_iff.mp each
    have filled (line : List Char) (hline : line ∈ body) (h : ¬ Blank line) :
        ¬ Blank (cleanLine m line) :=
      mt (dedented line hline).blank_iff.mp h
    -- The least indented line is one of those that stay, and it loses all of its indentation.
    have hleast : IsLeast (indentations (body.map (cleanLine m))) 0 := by
      obtain ⟨⟨line, hline, hfilled, hindent⟩, -⟩ := least
      have hbody : line ∈ body := by
        rw [split, List.mem_append, List.mem_append] at hline
        rcases hline with h | h | h
        · exact absurd (before line h) hfilled
        · exact h
        · exact absurd (after line h) hfilled
      exact ⟨⟨_, List.mem_map_of_mem hbody, filled line hbody hfilled,
        (dedented line hbody).indentation_eq_zero hindent⟩, fun n _ => Nat.zero_le n⟩
    have heach : List.Forall₂ (Dedented 0) (body.map (cleanLine m)) (body.map (cleanLine m)) := by
      rw [List.forall₂_same, List.forall_mem_map]
      exact fun line hline => (dedented line hline).again
    exact .filled (by rw [List.append_nil, List.nil_append]) (List.forall_mem_nil _)
      (exists_head?_map first filled) (exists_getLast?_map last filled) (List.forall_mem_nil _)
      hleast heach

theorem exists_line (h : Cleaned lines kept) {rest : List Char} (hrest : rest ∈ kept) :
    ∃ m, ∃ line ∈ lines, Dedented m line rest := by
  cases h with
  | blank blank => cases hrest
  | @filled _ _ _ _ m split before first last after least each =>
    obtain ⟨rfl, dedented⟩ := forall₂_dedented_iff.mp each
    obtain ⟨line, hline, rfl⟩ := List.mem_map.mp hrest
    refine ⟨m, line, ?_, dedented line hline⟩
    rw [split]
    exact List.mem_append_right _ (List.mem_append_left _ hline)

theorem last_ne_nil (h : Cleaned lines kept) : ∀ rest ∈ kept.getLast?, rest ≠ [] := by
  intro rest hrest
  cases h with
  | blank blank => cases hrest
  | @filled _ body _ _ m split before first last after least each =>
    obtain ⟨rfl, dedented⟩ := forall₂_dedented_iff.mp each
    have hlast : ∃ final ∈ (body.map (cleanLine m)).getLast?, final ≠ [] :=
      exists_getLast?_map last fun line hline filled =>
        mt (dedented line hline).eq_nil_iff.mp filled
    obtain ⟨final, hfinal, hne⟩ := hlast
    rwa [Option.mem_unique hrest hfinal]

end Cleaned

theorem exists_cleaned (lines : List (List Char)) : ∃ kept, Cleaned lines kept := by
  by_cases blank : ∀ line ∈ lines, Blank line
  · exact ⟨[], .blank blank⟩
  · push Not at blank
    obtain ⟨line, hline, filled⟩ := blank
    obtain ⟨front, body, back, split, before, first, last, after⟩ :=
      exists_enclosed ⟨line, hline, isBlankLine_eq_false_iff.mpr filled⟩
    simp only [isBlankLine_iff, isBlankLine_eq_false_iff] at before first last after
    have least : IsLeast (indentations lines) (sInf (indentations lines)) :=
      isLeast_csInf ⟨_, line, hline, filled, rfl⟩
    refine ⟨_, .filled split before first last after least
      (forall₂_dedented_iff.mpr ⟨rfl, fun l hl => dedented_cleanLine fun filled => ?_⟩)⟩
    have hlines : l ∈ lines := by
      rw [split]
      exact List.mem_append_right _ (List.mem_append_left _ hl)
    exact least.2 ⟨l, hlines, filled, rfl⟩

theorem cleaned_iff {lines kept : List (List Char)} :
    Cleaned lines kept ↔ cleanLines lines = kept := by
  refine ⟨Cleaned.cleanLines_eq, ?_⟩
  rintro rfl
  obtain ⟨kept, h⟩ := exists_cleaned lines
  rwa [h.cleanLines_eq]

section Lines

theorem lineChars_of_splitOn {cs last : List Char} {front : List (List Char)}
    (split : cs.splitOn '\n' = front ++ [last]) :
    lineChars cs = front.map withoutReturn ++ [last].filter (· ≠ []) := by
  rw [lineChars, pieces_eq_splitOn, split, endedLines_append front (List.cons_ne_nil last []),
    endedLines]
  cases last <;> simp

theorem lined_iff {text : String} {lines : List (List Char)} :
    Lined text lines ↔ lineChars text.toList = lines := by
  constructor
  · rintro ⟨front, last, split, rfl⟩
    exact lineChars_of_splitOn split
  · rintro rfl
    obtain hnil | ⟨front, last, split⟩ := List.eq_nil_or_concat (text.toList.splitOn '\n')
    · exact absurd hnil (List.splitOn_ne_nil _ _)
    · rw [List.concat_eq_append] at split
      exact ⟨front, last, split, lineChars_of_splitOn split⟩

theorem newline_not_mem_pieces {cs piece : List Char} (h : piece ∈ pieces cs) : '\n' ∉ piece := by
  induction cs generalizing piece with
  | nil =>
    rw [pieces, List.mem_singleton] at h
    simp [h]
  | cons c rest ih =>
    obtain ⟨p, ps, hrest⟩ := List.exists_cons_of_ne_nil (pieces_ne_nil rest)
    rw [hrest] at ih
    by_cases hc : c = '\n'
    · rw [pieces, if_pos hc, hrest, List.mem_cons] at h
      rcases h with rfl | h
      · exact List.not_mem_nil
      · exact ih h
    · simp only [pieces, if_neg hc, hrest, List.mem_cons] at h
      rcases h with rfl | h
      · exact List.not_mem_cons_of_ne_of_not_mem (Ne.symm hc) (ih List.mem_cons_self)
      · exact ih (List.mem_cons_of_mem p h)

theorem withoutReturn_prefix (line : List Char) : withoutReturn line <+: line := by
  rw [withoutReturn]
  split
  · exact List.dropLast_prefix line
  · exact List.prefix_refl line

theorem exists_piece {ps : List (List Char)} {line : List Char} (h : line ∈ endedLines ps) :
    ∃ p ∈ ps, line <+: p := by
  fun_induction endedLines ps with
  | case1 => cases h
  | case2 last empty => cases h
  | case3 last filled => exact ⟨line, h, List.prefix_refl line⟩
  | case4 p q rest ih =>
    rcases List.mem_cons.mp h with rfl | h
    · exact ⟨p, List.mem_cons_self, withoutReturn_prefix p⟩
    · obtain ⟨p', hp, hstart⟩ := ih h
      exact ⟨p', List.mem_cons_of_mem p hp, hstart⟩

theorem newline_not_mem_lineChars {cs line : List Char} (h : line ∈ lineChars cs) :
    '\n' ∉ line := by
  obtain ⟨p, hp, hstart⟩ := exists_piece h
  exact fun hline => newline_not_mem_pieces hp (hstart.subset hline)

/-- Lines that are joined stay apart, if no return ends one and the last is not empty. -/
theorem lineChars_intercalate {lines : List (List Char)} (unbroken : ∀ line ∈ lines, '\n' ∉ line)
    (ends : ∀ line ∈ lines, withoutReturn line = line) (last : ∀ line ∈ lines.getLast?, line ≠ []) :
    lineChars (['\n'].intercalate lines) = lines := by
  obtain rfl | ⟨init, final, rfl⟩ := List.eq_nil_or_concat lines
  · rfl
  · rw [List.concat_eq_append] at unbroken ends last ⊢
    have hfinal : final ≠ [] := last final (List.getLast?_concat ..)
    have hinit : init.map withoutReturn = init :=
      (List.map_congr_left fun line hline => ends line (List.mem_append_left _ hline)).trans
        (List.map_id' init)
    rw [lineChars_of_splitOn (List.splitOn_intercalate '\n' unbroken (by simp)), hinit]
    simp [hfinal]

end Lines

theorem cleanDoc_cleanDoc (doc : String) : cleanDoc (cleanDoc doc) = cleanDoc doc := by
  have cleaned : Cleaned (lineChars doc.toList) _ := cleaned_iff.mpr rfl
  have hlines := lineChars_intercalate
    (fun rest hrest => by
      obtain ⟨m, line, hline, dedented⟩ := cleaned.exists_line hrest
      exact fun h => newline_not_mem_lineChars hline (dedented.subset h))
    (fun rest hrest => by
      obtain ⟨m, line, -, dedented⟩ := cleaned.exists_line hrest
      exact dedented.withoutReturn_eq)
    cleaned.last_ne_nil
  calc cleanDoc (cleanDoc doc)
      = String.ofList (['\n'].intercalate
          (cleanLines (lineChars (['\n'].intercalate (cleanLines (lineChars doc.toList)))))) := by
        rw [cleanDoc, cleanDoc, String.toList_ofList]
    _ = cleanDoc doc := by rw [hlines, cleaned.again.cleanLines_eq, cleanDoc]

/-- A clean text is made of the lines of the text from the first to the last that is not blank,
without the least indentation of such lines and the blanks that end them, and of nothing else.
A line is never cut inside a character, whatever the indentation, and it loses just the characters
that are counted. To clean a clean text changes nothing. -/
theorem cleanDoc_exact :
    (∀ doc clean, cleanDoc doc = clean ↔ ∃ lines kept, Lined doc lines ∧ Cleaned lines kept ∧
      clean = String.ofList (['\n'].intercalate kept)) ∧
    (∀ n line, (⟨cutByte n line⟩ : String.Pos.Raw).IsValid (String.ofList line) ∧
      dedent n line = line.drop (min n (indentation line))) ∧
    ∀ doc, cleanDoc (cleanDoc doc) = cleanDoc doc := by
  refine ⟨fun doc clean => ⟨?_, ?_⟩,
    fun n line => ⟨isValid_cutByte n line, dedent_eq_drop n line⟩, cleanDoc_cleanDoc⟩
  · rintro rfl
    exact ⟨_, _, lined_iff.mpr rfl, cleaned_iff.mpr rfl, rfl⟩
  · rintro ⟨lines, kept, lined, cleaned, rfl⟩
    rw [cleanDoc, lined_iff.mp lined, cleaned_iff.mp cleaned]

example : cleanDoc "    Sends ½ of it.\n  \u3000\n    \u3000Then waits. \r\n" =
    "Sends ½ of it.\n\n\u3000Then waits." := by
  cbv

end LedgerScript.Text
