import Mathlib.Control.Monad.Basic
import LedgerScript.Proofs.RoundTrip

/-!
# Parentheses that go together

A list of lexemes is balanced if no part from its start closes more than it opens, and all of it
closes as much as it opens. Any list has one of three outlines: it is grouped as the marks of
some events are, it is grouped up to a closing parenthesis that has nothing to close, or it is
grouped from an opening one to its end. The outline decides what is read, and the counts of
parentheses decide which outline it is. So a line reads as an event exactly if it is
balanced, the event has the marks of the line, and an unbalanced line is refused at its first
stray closing parenthesis, or else at its last unclosed opening one.
-/

set_option autoImplicit false

namespace LedgerScript

namespace Lexeme

def count (m : Mark) (ls : List Lexeme) : Nat := ls.countP (fun l => l.mark = m)

@[simp] theorem count_nil (m : Mark) : count m [] = 0 := rfl

@[simp] theorem count_cons (m : Mark) (l : Lexeme) (ls : List Lexeme) :
    count m (l :: ls) = count m ls + if l.mark = m then 1 else 0 := by
  simp only [count, List.countP_cons, decide_eq_true_eq]

@[simp] theorem count_append (m : Mark) (xs ys : List Lexeme) :
    count m (xs ++ ys) = count m xs + count m ys :=
  List.countP_append

/-- No part from the start closes more than it opens. -/
def NeverOverclosed (ls : List Lexeme) : Prop :=
  ∀ part, part <+: ls → count .closing part ≤ count .opening part

structure Balanced (ls : List Lexeme) : Prop where
  covered : NeverOverclosed ls
  settled : count .opening ls = count .closing ls

/-- An opening parenthesis before these lexemes has its closing one among them: the one up to
which they are balanced. -/
def ClosedIn (ls : List Lexeme) : Prop :=
  ∃ inner c after, ls = inner ++ c :: after ∧ c.mark = .closing ∧ Balanced inner

/-- The lexeme with which, for the first time, more is closed than was opened. -/
def FirstStray (ls : List Lexeme) (c : Lexeme) : Prop :=
  ∃ front back, ls = front ++ c :: back ∧ NeverOverclosed front ∧
    count .opening (front ++ [c]) < count .closing (front ++ [c])

/-- The last opening parenthesis that has no closing one. -/
def LastUnclosed (ls : List Lexeme) (o : Lexeme) : Prop :=
  ∃ front back, ls = front ++ o :: back ∧ o.mark = .opening ∧ ¬ ClosedIn back ∧
    ∀ between p after, back = between ++ p :: after → p.mark = .opening → ClosedIn after

theorem NeverOverclosed.le {xs ys : List Lexeme} (h : NeverOverclosed (xs ++ ys)) :
    count .closing xs ≤ count .opening xs :=
  h xs (List.prefix_append xs ys)

theorem NeverOverclosed.front {xs ys : List Lexeme} (h : NeverOverclosed (xs ++ ys)) :
    NeverOverclosed xs :=
  fun part hpart => h part (hpart.trans (List.prefix_append xs ys))

theorem prefix_of_prefix_append {xs ys part : List Lexeme} (h : part <+: xs ++ ys) :
    part <+: xs ∨ ∃ rest, rest <+: ys ∧ part = xs ++ rest := by
  rcases Nat.le_total part.length xs.length with hshort | hlong
  · exact .inl (List.prefix_of_prefix_length_le h (List.prefix_append xs ys) hshort)
  · obtain ⟨rest, rfl⟩ := List.prefix_of_prefix_length_le (List.prefix_append xs ys) h hlong
    exact .inr ⟨rest, (List.prefix_append_right_inj xs).mp h, rfl⟩

theorem NeverOverclosed.nil : NeverOverclosed [] := by
  intro part hpart
  rw [List.prefix_nil.mp hpart]
  exact Nat.le_refl _

theorem NeverOverclosed.append {xs ys : List Lexeme} (hx : NeverOverclosed xs)
    (hy : NeverOverclosed ys) : NeverOverclosed (xs ++ ys) := by
  intro part hpart
  rcases prefix_of_prefix_append hpart with hpart | ⟨rest, hrest, rfl⟩
  · exact hx part hpart
  · have := hx xs List.prefix_rfl
    have := hy rest hrest
    rw [count_append, count_append]
    omega

theorem NeverOverclosed.opening {o : Lexeme} {ls : List Lexeme} (ho : o.mark = .opening)
    (h : NeverOverclosed ls) : NeverOverclosed (o :: ls) := by
  intro part hpart
  rcases List.prefix_cons_iff.mp hpart with rfl | ⟨rest, rfl, hrest⟩
  · exact Nat.le_refl _
  · have := h rest hrest
    simp [ho]
    omega

namespace Balanced

theorem nil : Balanced [] := ⟨.nil, rfl⟩

theorem append {xs ys : List Lexeme} (hx : Balanced xs) (hy : Balanced ys) :
    Balanced (xs ++ ys) where
  covered := hx.covered.append hy.covered
  settled := by rw [count_append, count_append, hx.settled, hy.settled]

theorem word {l : Lexeme} {s : String} (h : l.mark = .word s) : Balanced [l] where
  covered part hpart := by
    rcases List.prefix_cons_iff.mp hpart with rfl | ⟨rest, rfl, hrest⟩
    · exact Nat.le_refl _
    · rw [List.prefix_nil.mp hrest]
      simp [h]
  settled := by simp [h]

theorem wrap {inner : List Lexeme} {o c : Lexeme} (h : Balanced inner)
    (ho : o.mark = .opening) (hc : c.mark = .closing) : Balanced (o :: (inner ++ [c])) where
  covered part hpart := by
    rcases List.prefix_cons_iff.mp hpart with rfl | ⟨rest, rfl, hrest⟩
    · exact Nat.le_refl _
    · rcases List.prefix_concat_iff.mp hrest with rfl | hinner
      · have := h.settled
        simp [ho, hc, this]
      · have := h.covered rest hinner
        simp [ho]
        omega
  settled := by simp [ho, hc, h.settled]

end Balanced

end Lexeme

open Lexeme

namespace Event

/-- The lexemes of some events in a row. -/
def Grouped (ls : List Lexeme) : Prop := ∃ es, ls.map Lexeme.mark = marksAll es

theorem marksAll_append (es fs : List Event) :
    marksAll (es ++ fs) = marksAll es ++ marksAll fs := by
  induction es with
  | nil => rfl
  | cons e es ih => rw [List.cons_append, marksAll, marksAll, ih, List.append_assoc]

namespace Grouped

theorem nil : Grouped [] := ⟨[], rfl⟩

theorem append {xs ys : List Lexeme} : Grouped xs → Grouped ys → Grouped (xs ++ ys)
  | ⟨es, hes⟩, ⟨fs, hfs⟩ => ⟨es ++ fs, by rw [List.map_append, hes, hfs, marksAll_append]⟩

theorem word {l : Lexeme} {s : String} (h : l.mark = .word s) : Grouped [l] :=
  ⟨[.atom s], by rw [List.map_singleton, h]; rfl⟩

theorem wrap {inner : List Lexeme} {o c : Lexeme} (h : Grouped inner) (ho : o.mark = .opening)
    (hc : c.mark = .closing) : Grouped (o :: (inner ++ [c])) := by
  obtain ⟨es, hes⟩ := h
  refine ⟨[.list es], ?_⟩
  rw [List.map_cons, List.map_append, List.map_singleton, ho, hes, hc, marksAll, marksAll, marks,
    List.append_nil]
  rfl

end Grouped

mutual
theorem balanced_of_marks (e : Event) (ls : List Lexeme) (h : ls.map Lexeme.mark = e.marks) :
    Balanced ls := by
  match e with
  | .atom s =>
    rw [marks, List.map_eq_cons_iff] at h
    obtain ⟨l, tail, rfl, hl, htail⟩ := h
    rw [List.map_eq_nil_iff.mp htail]
    exact .word hl
  | .list es =>
    rw [marks, List.cons_append, List.map_eq_cons_iff] at h
    obtain ⟨o, tail, rfl, ho, htail⟩ := h
    obtain ⟨inner, last, rfl, hinner, hlast⟩ := List.map_eq_append_iff.mp htail
    obtain ⟨c, beyond, rfl, hc, hbeyond⟩ := List.map_eq_cons_iff.mp hlast
    rw [List.map_eq_nil_iff.mp hbeyond]
    exact (balanced_of_marksAll es inner hinner).wrap ho hc

theorem balanced_of_marksAll (es : List Event) (ls : List Lexeme)
    (h : ls.map Lexeme.mark = marksAll es) : Balanced ls := by
  match es with
  | [] =>
    rw [List.map_eq_nil_iff.mp h]
    exact .nil
  | e :: es =>
    obtain ⟨front, back, rfl, hfront, hback⟩ := List.map_eq_append_iff.mp h
    exact (balanced_of_marks e front hfront).append (balanced_of_marksAll es back hback)
end

theorem Grouped.balanced {ls : List Lexeme} : Grouped ls → Balanced ls
  | ⟨es, h⟩ => balanced_of_marksAll es ls h

/-- How far the parentheses of a list go together. -/
inductive Outline : List Lexeme → Prop
  | whole {ls : List Lexeme} (groups : Grouped ls) : Outline ls
  | stray {front : List Lexeme} {c : Lexeme} (back : List Lexeme) (groups : Grouped front)
      (closing : c.mark = .closing) : Outline (front ++ c :: back)
  | unclosed {front : List Lexeme} {o : Lexeme} {back : List Lexeme}
      (covered : NeverOverclosed front) (opening : o.mark = .opening) (groups : Grouped back) :
      Outline (front ++ o :: back)

theorem Outline.after {xs ys : List Lexeme} (groups : Grouped xs) (h : Outline ys) :
    Outline (xs ++ ys) := by
  cases h with
  | whole hys => exact .whole (groups.append hys)
  | stray back hfront hc =>
    rw [← List.append_assoc]
    exact .stray back (groups.append hfront) hc
  | unclosed covered ho hback =>
    rw [← List.append_assoc]
    exact .unclosed (groups.balanced.covered.append covered) ho hback

/-- Every list has an outline. The induction is on the length, because what follows a group in
parentheses is outlined anew. -/
theorem outline (ls : List Lexeme) : Outline ls := by
  induction hn : ls.length using Nat.strongRecOn generalizing ls with
  | ind n ih =>
    subst hn
    cases ls with
    | nil => exact .whole .nil
    | cons l rest =>
      have hrest := ih rest.length (Nat.lt_succ_self _) rest rfl
      cases hl : l.mark with
      | word s => exact Outline.after (.word hl) hrest
      | closing => exact @Outline.stray [] l rest .nil hl
      | opening =>
        cases hrest with
        | whole groups => exact @Outline.unclosed [] l rest .nil hl groups
        | unclosed covered ho groups => exact .unclosed (covered.opening hl) ho groups
        | @stray front c back groups hc =>
          have hshort : back.length < (l :: (front ++ c :: back)).length := by
            simp only [List.length_cons, List.length_append]
            omega
          have hwhole := Outline.after (groups.wrap hl hc) (ih back.length hshort back rfl)
          rwa [List.cons_append, List.append_assoc, List.singleton_append] at hwhole

theorem not_neverOverclosed_stray {front : List Lexeme} {c : Lexeme} (back : List Lexeme)
    (groups : Grouped front) (closing : c.mark = .closing) :
    ¬ NeverOverclosed (front ++ c :: back) := by
  intro covered
  rw [List.append_cons] at covered
  have hle := covered.le
  have hsettled := groups.balanced.settled
  simp [closing] at hle
  omega

theorem count_lt_of_unclosed {front : List Lexeme} {o : Lexeme} {back : List Lexeme}
    (covered : NeverOverclosed front) (opening : o.mark = .opening) (groups : Grouped back) :
    count .closing (front ++ o :: back) < count .opening (front ++ o :: back) := by
  have hle := covered front List.prefix_rfl
  have hsettled := groups.balanced.settled
  simp [opening]
  omega

theorem grouped_iff_balanced {ls : List Lexeme} : Grouped ls ↔ Balanced ls := by
  refine ⟨Grouped.balanced, fun h => ?_⟩
  cases outline ls with
  | whole groups => exact groups
  | stray back groups hc => exact absurd h.covered (not_neverOverclosed_stray back groups hc)
  | unclosed covered ho groups =>
    have hlt := count_lt_of_unclosed covered ho groups
    rw [h.settled] at hlt
    exact absurd hlt (Nat.lt_irrefl _)

theorem not_closedIn_of_grouped {ls : List Lexeme} (groups : Grouped ls) : ¬ ClosedIn ls := by
  rintro ⟨inner, c, after, rfl, hc, hinner⟩
  exact not_neverOverclosed_stray after (grouped_iff_balanced.mpr hinner) hc groups.balanced.covered

theorem firstStray_iff {ls : List Lexeme} {c : Lexeme} :
    FirstStray ls c ↔
      ∃ front back, ls = front ++ c :: back ∧ Grouped front ∧ c.mark = .closing := by
  constructor
  · rintro ⟨front, back, rfl, covered, hmore⟩
    have hle := covered front List.prefix_rfl
    by_cases hc : c.mark = .closing
    · simp [hc] at hmore
      exact ⟨front, back, rfl, grouped_iff_balanced.mpr ⟨covered, by omega⟩, hc⟩
    · simp [hc] at hmore
      omega
  · rintro ⟨front, back, rfl, groups, hc⟩
    have hsettled := groups.balanced.settled
    refine ⟨front, back, rfl, groups.balanced.covered, ?_⟩
    simp [hc, hsettled]

theorem lastUnclosed_iff {ls : List Lexeme} {o : Lexeme} (covered : NeverOverclosed ls) :
    LastUnclosed ls o ↔
      ∃ front back, ls = front ++ o :: back ∧ o.mark = .opening ∧ Grouped back := by
  constructor
  · rintro ⟨front, back, rfl, ho, hopen, hlater⟩
    refine ⟨front, back, rfl, ho, ?_⟩
    cases outline back with
    | whole groups => exact groups
    | @stray inner c after groups hc =>
      exact absurd ⟨inner, c, after, rfl, hc, groups.balanced⟩ hopen
    | @unclosed between p after _ hp groups =>
      exact absurd (hlater between p after rfl hp) (not_closedIn_of_grouped groups)
  · rintro ⟨front, back, rfl, ho, groups⟩
    refine ⟨front, back, rfl, ho, not_closedIn_of_grouped groups, ?_⟩
    rintro between p after rfl hp
    have hsettled := groups.balanced.settled
    have hbetween := groups.balanced.covered.front
    cases outline after with
    | whole hafter =>
      have hlt := count_lt_of_unclosed hbetween hp hafter
      omega
    | @stray inner c rest hinner hc => exact ⟨inner, c, rest, rfl, hc, hinner.balanced⟩
    | @unclosed inner q rest hcovered hq hrest =>
      rw [← List.cons_append, ← List.append_assoc] at hsettled
      have hlt := count_lt_of_unclosed (hbetween.append (hcovered.opening hp)) hq hrest
      omega

theorem exists_firstStray {ls : List Lexeme} (h : ¬ NeverOverclosed ls) :
    ∃ c, FirstStray ls c := by
  cases outline ls with
  | whole groups => exact absurd groups.balanced.covered h
  | @stray front c back groups hc => exact ⟨c, firstStray_iff.mpr ⟨front, back, rfl, groups, hc⟩⟩
  | unclosed covered ho groups =>
    exact absurd (covered.append (groups.balanced.covered.opening ho)) h

theorem exists_lastUnclosed {ls : List Lexeme} (covered : NeverOverclosed ls)
    (h : count .opening ls ≠ count .closing ls) : ∃ o, LastUnclosed ls o := by
  cases outline ls with
  | whole groups => exact absurd groups.balanced.settled h
  | stray back groups hc => exact absurd covered (not_neverOverclosed_stray back groups hc)
  | @unclosed front o back _ ho groups =>
    exact ⟨o, (lastUnclosed_iff covered).mpr ⟨front, back, rfl, ho, groups⟩⟩

section Build

theorem build_stray (items : List Event) (c : Lexeme) (rest : List Lexeme)
    (h : c.mark = .closing) :
    build [] items (c :: rest) = .error ⟨c.place, .unbalancedClosing⟩ := by
  obtain ⟨token, place⟩ := c
  cases token with
  | closing => rfl
  | word t => cases h
  | quoted t => cases h
  | opening => cases h

theorem ofLexemes_stray {front : List Lexeme} {c : Lexeme} (back : List Lexeme)
    (groups : Grouped front) (closing : c.mark = .closing) :
    ofLexemes (front ++ c :: back) = .error ⟨c.place, .unbalancedClosing⟩ := by
  obtain ⟨es, hes⟩ := groups
  rw [ofLexemes, build_marksAll es [] [] front _ hes, build_stray _ c back closing]
  rfl

theorem build_unclosed (g : Group) (groups : List Group) (items : List Event)
    {ls : List Lexeme} (h : Grouped ls) :
    build (g :: groups) items ls = .error ⟨g.opening, .unclosedOpening⟩ := by
  obtain ⟨es, hes⟩ := h
  rw [← List.append_nil ls, build_marksAll es _ _ ls [] hes]
  rfl

theorem exists_build_append (front : List Lexeme) (groups : List Group) (items : List Event)
    (h : ∀ part, part <+: front → count .closing part ≤ count .opening part + groups.length) :
    ∃ groups' items', ∀ rest, build groups items (front ++ rest) = build groups' items' rest := by
  induction front generalizing groups items with
  | nil => exact ⟨groups, items, fun _ => rfl⟩
  | cons l front ih =>
    have hpart (part : List Lexeme) (hp : part <+: front) :
        count .closing (l :: part) ≤ count .opening (l :: part) + groups.length :=
      h (l :: part) (List.cons_prefix_cons.mpr ⟨rfl, hp⟩)
    cases hl : l.mark with
    | word s =>
      obtain ⟨groups', items', hbuild⟩ := ih groups (.atom s :: items) (fun part hp => by
        simpa [hl] using hpart part hp)
      exact ⟨groups', items', fun rest => (build_word groups items l _ s hl).trans (hbuild rest)⟩
    | opening =>
      obtain ⟨groups', items', hbuild⟩ := ih (⟨l.place, items⟩ :: groups) [] (fun part hp => by
        have := hpart part hp
        simp [hl] at this ⊢
        omega)
      exact ⟨groups', items', fun rest => (build_opening groups items l _ hl).trans (hbuild rest)⟩
    | closing =>
      cases groups with
      | nil =>
        have hfirst := hpart [] List.nil_prefix
        simp [hl] at hfirst
      | cons g groups =>
        obtain ⟨groups', items', hbuild⟩ :=
          ih groups (.list items.reverse :: g.before) (fun part hp => by
            have := hpart part hp
            simp [hl] at this ⊢
            omega)
        exact ⟨groups', items',
          fun rest => (build_closing g groups items l _ hl).trans (hbuild rest)⟩

theorem ofLexemes_unclosed {front back : List Lexeme} {o : Lexeme}
    (covered : NeverOverclosed front) (opening : o.mark = .opening) (groups : Grouped back) :
    ofLexemes (front ++ o :: back) = .error ⟨o.place, .unclosedOpening⟩ := by
  obtain ⟨groups', items', hbuild⟩ :=
    exists_build_append front [] [] (fun part hp => covered part hp)
  rw [ofLexemes, hbuild, build_opening _ _ _ _ opening, build_unclosed _ _ _ groups]
  rfl

theorem ofLexemes_of_firstStray {ls : List Lexeme} {c : Lexeme} (h : FirstStray ls c) :
    ofLexemes ls = .error ⟨c.place, .unbalancedClosing⟩ := by
  obtain ⟨front, back, rfl, groups, hc⟩ := firstStray_iff.mp h
  exact ofLexemes_stray back groups hc

theorem ofLexemes_of_lastUnclosed {ls : List Lexeme} {o : Lexeme} (covered : NeverOverclosed ls)
    (h : LastUnclosed ls o) : ofLexemes ls = .error ⟨o.place, .unclosedOpening⟩ := by
  obtain ⟨front, back, rfl, ho, groups⟩ := (lastUnclosed_iff covered).mp h
  exact ofLexemes_unclosed covered.front ho groups

theorem ofLexemes_eq_ok_iff {ls : List Lexeme} {e : Event} :
    ofLexemes ls = .ok e ↔ ∃ items, e = .list items ∧ ls.map Lexeme.mark = marksAll items := by
  constructor
  · intro h
    cases outline ls with
    | whole groups =>
      obtain ⟨items, hitems⟩ := groups
      rw [ofLexemes_marksAll items ls hitems] at h
      cases h
      exact ⟨items, rfl, hitems⟩
    | stray back groups hc =>
      rw [ofLexemes_stray back groups hc] at h
      cases h
    | unclosed covered ho groups =>
      rw [ofLexemes_unclosed covered ho groups] at h
      cases h
  · rintro ⟨items, rfl, hitems⟩
    exact ofLexemes_marksAll items ls hitems

end Build

theorem ofLine_of_scan {source : String} {ls : List Lexeme} (h : Token.scan source 1 = .ok ls) :
    ofLine source = ofLexemes ls := by
  rw [ofLine, ofLineAt, h]
  rfl

theorem ofLine_of_scan_error {source : String} {f : SyntaxError}
    (h : Token.scan source 1 = .error f) : ofLine source = .error f := by
  rw [ofLine, ofLineAt, h]
  rfl

/-- A line reads as an event exactly if its tokens can be told apart and are balanced, and that
event has the marks of the line. Otherwise the fault of the tokens counts first, then the first
stray closing parenthesis, and then the last unclosed opening one. -/
theorem ofLine_decided_by_balance (source : String) :
    ((∃ e, ofLine source = .ok e) ↔ ∃ ls, Token.scan source 1 = .ok ls ∧ Balanced ls) ∧
    (∀ e, ofLine source = .ok e → ∃ items ls, e = .list items ∧ Token.scan source 1 = .ok ls ∧
      ls.map Lexeme.mark = marksAll items) ∧
    (∀ f, Token.scan source 1 = .error f → ofLine source = .error f) ∧
    (∀ ls, Token.scan source 1 = .ok ls → ¬ NeverOverclosed ls → (∃ c, FirstStray ls c) ∧
      ∀ c, FirstStray ls c → ofLine source = .error ⟨c.place, .unbalancedClosing⟩) ∧
    (∀ ls, Token.scan source 1 = .ok ls → NeverOverclosed ls → ¬ Balanced ls →
      (∃ o, LastUnclosed ls o) ∧
        ∀ o, LastUnclosed ls o → ofLine source = .error ⟨o.place, .unclosedOpening⟩) ∧
    SyntaxFault.message .unbalancedClosing = "unbalanced ')'" ∧
    SyntaxFault.message .unclosedOpening = "unclosed '('" := by
  have hread (e : Event) (h : ofLine source = .ok e) :
      ∃ items ls, e = .list items ∧ Token.scan source 1 = .ok ls ∧
        ls.map Lexeme.mark = marksAll items := by
    cases hscan : Token.scan source 1 with
    | error f =>
      rw [ofLine_of_scan_error hscan] at h
      cases h
    | ok ls =>
      rw [ofLine_of_scan hscan] at h
      obtain ⟨items, he, hitems⟩ := ofLexemes_eq_ok_iff.mp h
      exact ⟨items, ls, he, rfl, hitems⟩
  refine ⟨⟨?_, ?_⟩, hread, fun f => ofLine_of_scan_error, ?_, ?_, rfl, rfl⟩
  · rintro ⟨e, h⟩
    obtain ⟨items, ls, -, hscan, hitems⟩ := hread e h
    exact ⟨ls, hscan, grouped_iff_balanced.mp ⟨items, hitems⟩⟩
  · rintro ⟨ls, hscan, hbalanced⟩
    obtain ⟨items, hitems⟩ := grouped_iff_balanced.mpr hbalanced
    exact ⟨.list items, (ofLine_of_scan hscan).trans (ofLexemes_marksAll items ls hitems)⟩
  · intro ls hscan hover
    refine ⟨exists_firstStray hover, fun c hc => ?_⟩
    rw [ofLine_of_scan hscan, ofLexemes_of_firstStray hc]
  · intro ls hscan covered hunbalanced
    have hcounts : count .opening ls ≠ count .closing ls := fun h => hunbalanced ⟨covered, h⟩
    refine ⟨exists_lastUnclosed covered hcounts, fun o ho => ?_⟩
    rw [ofLine_of_scan hscan, ofLexemes_of_lastUnclosed covered ho]

theorem ofLine_decided_by_balance_faults :
    ofLine "F)(B" = .error ⟨⟨1, 2⟩, .unbalancedClosing⟩ ∧
      ofLine "((B)" = .error ⟨⟨1, 1⟩, .unclosedOpening⟩ := by
  let stray : List Lexeme :=
    [⟨.word "F", ⟨1, 1⟩⟩, ⟨.closing, ⟨1, 2⟩⟩, ⟨.opening, ⟨1, 3⟩⟩, ⟨.word "B", ⟨1, 4⟩⟩]
  let unclosed : List Lexeme :=
    [⟨.opening, ⟨1, 1⟩⟩, ⟨.opening, ⟨1, 2⟩⟩, ⟨.word "B", ⟨1, 3⟩⟩, ⟨.closing, ⟨1, 4⟩⟩]
  have hstray : Token.scan "F)(B" 1 = .ok stray := by decide +kernel
  have hunclosed : Token.scan "((B)" 1 = .ok unclosed := by decide +kernel
  have word {l : Lexeme} {s : String} (h : l.mark = .word s) : Balanced [l] := .word h
  have hover : ¬ NeverOverclosed stray := fun h =>
    absurd (h (stray.take 2) (List.take_prefix 2 stray)) (by decide)
  have hfirst : FirstStray stray ⟨.closing, ⟨1, 2⟩⟩ :=
    ⟨[⟨.word "F", ⟨1, 1⟩⟩], _, rfl, (word rfl).covered, by decide⟩
  have hcovered : NeverOverclosed unclosed := ((word rfl).wrap rfl rfl).covered.opening rfl
  have hlast : LastUnclosed unclosed ⟨.opening, ⟨1, 1⟩⟩ :=
    (lastUnclosed_iff hcovered).mpr ⟨[], _, rfl, rfl, [.list [.atom "B"]], rfl⟩
  obtain ⟨-, -, -, hclosing, -⟩ := ofLine_decided_by_balance "F)(B"
  obtain ⟨-, -, -, -, hopening, -⟩ := ofLine_decided_by_balance "((B)"
  exact ⟨(hclosing stray hstray hover).2 _ hfirst,
    (hopening unclosed hunclosed hcovered (fun h => absurd h.settled (by decide))).2 _ hlast⟩

end Event

end LedgerScript
