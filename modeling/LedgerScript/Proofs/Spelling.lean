import LedgerScript.Proofs.Decimal

/-!
# Spellings of decimals

A decimal is read from an optional sign, digits, and an optional point with digits after it, at
least one digit in all and no more on either side of the point than a limit says; and from
nothing else.
-/

set_option autoImplicit false

namespace LedgerScript

theorem ofDigitChars_lt {cs : List Char} (digits : ∀ c ∈ cs, c.isDigit = true) :
    Nat.ofDigitChars 10 cs 0 < 10 ^ cs.length := by
  induction cs with
  | nil => decide
  | cons c rest ih =>
    have hc := (Char.isDigit_iff_toNat.mp (digits c List.mem_cons_self)).2
    have hc : c.toNat - '0'.toNat ≤ 9 := Nat.sub_le_of_le_add hc
    have hrest := ih (fun d hd => digits d (List.mem_cons_of_mem c hd))
    have hfirst := Nat.mul_le_mul_left (10 ^ rest.length) hc
    rw [Nat.ofDigitChars_cons, Nat.ofDigitChars_eq_ofDigitChars_zero, Nat.mul_zero, Nat.zero_add,
      List.length_cons, pow_succ]
    omega

namespace Decimal

inductive Sign where
  | bare
  | plus
  | minus

namespace Sign

def chars : Sign → List Char
  | bare => []
  | plus => ['+']
  | minus => ['-']

def apply : Sign → Nat → Int
  | bare, n => n
  | plus, n => n
  | minus, n => -n

theorem natAbs_apply (sign : Sign) (n : Nat) : (sign.apply n).natAbs = n := by
  cases sign with
  | bare => rfl
  | plus => rfl
  | minus => exact Int.natAbs_neg _

theorem mem_chars {sign : Sign} {c : Char} (hc : c ∈ sign.chars) : c = '+' ∨ c = '-' := by
  cases sign with
  | bare => cases hc
  | plus => exact .inl (List.mem_singleton.mp hc)
  | minus => exact .inr (List.mem_singleton.mp hc)

end Sign

/-- How a decimal may be written: an optional sign, digits, and an optional point with digits
after it, at least one digit in all. -/
structure Spelling where
  sign : Sign
  whole : List Char
  fraction? : Option (List Char)
  digits : ∀ c ∈ whole ++ fraction?.getD [], c.isDigit = true
  nonempty : whole ++ fraction?.getD [] ≠ []

namespace Spelling

def fraction (s : Spelling) : List Char := s.fraction?.getD []

def body (s : Spelling) : List Char :=
  match s.fraction? with
  | none => s.whole
  | some fraction => s.whole ++ '.' :: fraction

def chars (s : Spelling) : List Char := s.sign.chars ++ s.body

def value (s : Spelling) : Decimal :=
  of (s.sign.apply (Nat.ofDigitChars 10 (s.whole ++ s.fraction) 0)) s.fraction.length

/-- At most `limit` digits on each side of the point. -/
def Fits (s : Spelling) (limit : Nat) : Prop :=
  s.whole.length ≤ limit ∧ s.fraction.length ≤ limit

instance (s : Spelling) (limit : Nat) : Decidable (s.Fits limit) :=
  inferInstanceAs (Decidable (_ ∧ _))

theorem ne_point_of_mem_whole {s : Spelling} {c : Char} (hc : c ∈ s.whole) : (c != '.') = true := by
  have hdigit := s.digits c (List.mem_append_left _ hc)
  rw [bne_iff_ne]
  rintro rfl
  cases hdigit

theorem takeWhile_body (s : Spelling) : s.body.takeWhile (· != '.') = s.whole := by
  rw [body]
  split
  · exact List.takeWhile_eq_self_iff.mpr fun c hc => ne_point_of_mem_whole hc
  · rw [List.takeWhile_append_of_pos fun c hc => ne_point_of_mem_whole hc,
      List.takeWhile_cons_of_neg (by decide), List.append_nil]

theorem drop_dropWhile_body (s : Spelling) :
    (s.body.dropWhile (· != '.')).drop 1 = s.fraction := by
  rw [body, fraction]
  split
  · rename_i hnone
    rw [List.dropWhile_eq_nil_iff.mpr fun c hc => ne_point_of_mem_whole hc, hnone]
    rfl
  · rename_i fraction hsome
    rw [List.dropWhile_append_of_pos fun c hc => ne_point_of_mem_whole hc,
      List.dropWhile_cons_of_neg (by decide), hsome]
    rfl

theorem mem_body {s : Spelling} {c : Char} (hc : c ∈ s.body) : c = '.' ∨ c.isDigit = true := by
  have hdigits := s.digits c
  rw [body] at hc
  split at hc
  · exact .inr (hdigits (List.mem_append_left _ hc))
  · rename_i fraction hsome
    rw [hsome, Option.getD_some, List.mem_append] at hdigits
    rw [List.mem_append, List.mem_cons] at hc
    rcases hc with hc | rfl | hc
    · exact .inr (hdigits (.inl hc))
    · exact .inl rfl
    · exact .inr (hdigits (.inr hc))

theorem mem_chars {s : Spelling} {c : Char} (hc : c ∈ s.chars) :
    c = '+' ∨ c = '-' ∨ c = '.' ∨ c.isDigit = true := by
  rw [chars, List.mem_append] at hc
  rcases hc with hc | hc
  · exact (Sign.mem_chars hc).imp_right .inl
  · exact .inr (.inr (mem_body hc))

theorem exists_digit (s : Spelling) : ∃ c ∈ s.chars, c.isDigit = true := by
  obtain ⟨c, hc⟩ := List.exists_mem_of_ne_nil _ s.nonempty
  refine ⟨c, List.mem_append_right _ ?_, s.digits c hc⟩
  rw [body]
  split
  · rename_i hnone
    rwa [hnone, Option.getD_none, List.append_nil] at hc
  · rename_i fraction hsome
    rw [hsome, Option.getD_some] at hc
    exact (List.Sublist.append_left (List.sublist_cons_self '.' fraction) s.whole).subset hc

theorem chars_ne_nil (s : Spelling) : s.chars ≠ [] := by
  obtain ⟨c, hc, -⟩ := s.exists_digit
  exact List.ne_nil_of_mem hc

theorem head?_body_ne {s : Spelling} {c : Char} (hpoint : c ≠ '.') (hdigit : c.isDigit = false) :
    (s.body.head? == some c) = false := by
  rw [beq_eq_false_iff_ne]
  intro hhead
  rcases mem_body (List.mem_of_mem_head? hhead) with rfl | h
  · exact hpoint rfl
  · rw [hdigit] at h
    cases h

end Spelling

def ofBody? (negative : Bool) (body : List Char) (limit : Nat) : Option Decimal :=
  let whole := body.takeWhile (· != '.')
  let fraction := (body.dropWhile (· != '.')).drop 1
  if (whole.isEmpty && fraction.isEmpty) || !whole.all Char.isDigit || !fraction.all Char.isDigit ||
      whole.length > limit || fraction.length > limit then none
  else
    let n : Int := Nat.ofDigitChars 10 (whole ++ fraction) 0
    some (of (if negative then -n else n) fraction.length)

theorem ofChars?_eq (cs : List Char) (limit : Nat) :
    ofChars? cs limit =
      ofBody? (cs.head? == some '-')
        (if cs.head? == some '-' || cs.head? == some '+' then cs.tail else cs) limit := rfl

namespace Spelling

theorem ofBody?_body (s : Spelling) (limit : Nat) (negative : Bool) :
    ofBody? negative s.body limit =
      if s.Fits limit then
        some (of (if negative then -(Nat.ofDigitChars 10 (s.whole ++ s.fraction) 0 : Nat)
          else (Nat.ofDigitChars 10 (s.whole ++ s.fraction) 0 : Nat)) s.fraction.length)
      else none := by
  have hnonempty : ¬ (s.whole = [] ∧ s.fraction = []) := by
    rintro ⟨hwhole, hfraction⟩
    apply s.nonempty
    rw [hwhole, List.nil_append]
    exact hfraction
  have hwhole : s.whole.all Char.isDigit = true :=
    List.all_eq_true.mpr fun c hc => s.digits c (List.mem_append_left _ hc)
  have hfraction : s.fraction.all Char.isDigit = true :=
    List.all_eq_true.mpr fun c hc => s.digits c (List.mem_append_right _ hc)
  simp only [ofBody?]
  rw [takeWhile_body, drop_dropWhile_body, hwhole, hfraction]
  by_cases hfits : s.Fits limit
  · rw [if_pos hfits, if_neg]
    obtain ⟨hw, hf⟩ := hfits
    simp only [Bool.or_eq_true, Bool.and_eq_true, List.isEmpty_iff, Bool.not_true, decide_eq_true_eq]
    rintro ((((h | h) | h) | h) | h)
    · exact hnonempty h
    · cases h
    · cases h
    · omega
    · omega
  · rw [if_neg hfits, if_pos]
    rw [Fits] at hfits
    simp only [Bool.or_eq_true, decide_eq_true_eq]
    omega

/-- A spelling is read as the number it spells, if it keeps to the limit. -/
theorem ofChars?_chars (s : Spelling) (limit : Nat) :
    ofChars? s.chars limit = if s.Fits limit then some s.value else none := by
  rw [ofChars?_eq, chars, value]
  cases s.sign with
  | bare =>
    have hminus := head?_body_ne (s := s) (c := '-') (by decide) (by decide)
    have hplus := head?_body_ne (s := s) (c := '+') (by decide) (by decide)
    simp only [Sign.chars, List.nil_append, hminus, hplus, Bool.or_false, Bool.false_eq_true,
      if_false]
    exact ofBody?_body s limit false
  | plus => exact ofBody?_body s limit false
  | minus => exact ofBody?_body s limit true

theorem exists_body_of_ofBody? {negative : Bool} {body : List Char} {limit : Nat} {d : Decimal}
    (h : ofBody? negative body limit = some d) (sign : Sign) :
    ∃ s : Spelling, s.sign = sign ∧ s.body = body := by
  simp only [ofBody?] at h
  split at h
  · cases h
  rename_i hdigits
  simp only [Bool.or_eq_true, not_or, Bool.and_eq_true, List.isEmpty_iff, Bool.not_eq_true',
    Bool.not_eq_false] at hdigits
  obtain ⟨⟨⟨⟨hsome, hwhole⟩, hfraction⟩, -⟩, -⟩ := hdigits
  rw [List.all_eq_true] at hwhole hfraction
  have hsplit := List.takeWhile_append_dropWhile (p := (· != '.')) (l := body)
  cases hrest : body.dropWhile (· != '.') with
  | nil =>
    rw [hrest, List.append_nil] at hsplit
    rw [hrest, List.drop_nil] at hsome
    refine ⟨⟨sign, body.takeWhile (· != '.'), none, ?_, ?_⟩, rfl, hsplit⟩
    · simpa using hwhole
    · simpa using hsome
  | cons point fraction =>
    have hpoint : point = '.' := by
      have := List.head?_dropWhile_not (· != '.') body
      rw [hrest] at this
      simpa using this
    rw [hrest, hpoint] at hsplit
    rw [hrest, List.drop_one, List.tail_cons] at hsome hfraction
    refine ⟨⟨sign, body.takeWhile (· != '.'), some fraction, ?_, ?_⟩, rfl, hsplit⟩
    · intro c hc
      rcases List.mem_append.mp hc with hc | hc
      · exact hwhole c hc
      · exact hfraction c hc
    · intro hnil
      exact hsome (List.append_eq_nil_iff.mp hnil)

theorem exists_of_ofChars? {cs : List Char} {limit : Nat} {d : Decimal}
    (h : ofChars? cs limit = some d) : ∃ s : Spelling, s.chars = cs ∧ s.Fits limit ∧ s.value = d := by
  have hchars : ∃ s : Spelling, s.chars = cs := by
    rw [ofChars?_eq] at h
    match cs with
    | [] =>
      obtain ⟨s, hsign, hbody⟩ := exists_body_of_ofBody? h .bare
      exact ⟨s, by rw [chars, hsign, hbody]; rfl⟩
    | c :: rest =>
      by_cases hminus : c = '-'
      · subst hminus
        obtain ⟨s, hsign, hbody⟩ := exists_body_of_ofBody? h .minus
        exact ⟨s, by rw [chars, hsign, hbody]; rfl⟩
      by_cases hplus : c = '+'
      · subst hplus
        obtain ⟨s, hsign, hbody⟩ := exists_body_of_ofBody? h .plus
        exact ⟨s, by rw [chars, hsign, hbody]; rfl⟩
      obtain ⟨s, hsign, hbody⟩ := exists_body_of_ofBody? h .bare
      refine ⟨s, ?_⟩
      rw [chars, hsign, hbody]
      simp [Sign.chars, hminus, hplus]
  obtain ⟨s, rfl⟩ := hchars
  rw [ofChars?_chars] at h
  split at h
  · rename_i hfits
    exact ⟨s, rfl, hfits, Option.some.inj h⟩
  · cases h

end Spelling

end Decimal

end LedgerScript
