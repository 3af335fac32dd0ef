/-!
# Named fields

Values under distinct names, kept in the order of their names.
-/

set_option autoImplicit false

namespace LedgerScript

structure Fields (β : Type) where
  entries : List (String × β)
  sorted : entries.Pairwise (fun a b => a.1 < b.1)
  deriving DecidableEq

namespace Fields

variable {β : Type}

def insertEntry (name : String) (value : β) : List (String × β) → List (String × β)
  | [] => [(name, value)]
  | (key, old) :: rest =>
    if name < key then (name, value) :: (key, old) :: rest
    else if name = key then (name, value) :: rest
    else (key, old) :: insertEntry name value rest

theorem mem_insertEntry (name : String) (value : β) (xs : List (String × β)) (x : String × β)
    (h : x ∈ insertEntry name value xs) : x = (name, value) ∨ x ∈ xs := by
  induction xs with
  | nil => simpa [insertEntry] using h
  | cons y rest ih =>
    obtain ⟨key, old⟩ := y
    simp only [insertEntry] at h
    split at h
    · simpa using h
    · split at h
      · rcases List.mem_cons.mp h with h | h
        · exact .inl h
        · exact .inr (List.mem_cons_of_mem _ h)
      · rcases List.mem_cons.mp h with h | h
        · exact .inr (h ▸ List.mem_cons_self)
        · exact (ih h).imp_right (List.mem_cons_of_mem _)

theorem sorted_insertEntry (name : String) (value : β) (xs : List (String × β))
    (h : xs.Pairwise (fun a b => a.1 < b.1)) :
    (insertEntry name value xs).Pairwise (fun a b => a.1 < b.1) := by
  induction xs with
  | nil => simp [insertEntry]
  | cons y rest ih =>
    obtain ⟨key, old⟩ := y
    obtain ⟨hy, hrest⟩ := List.pairwise_cons.mp h
    simp only [insertEntry]
    split
    · rename_i hlt
      refine List.pairwise_cons.mpr ⟨fun x hx => ?_, h⟩
      rcases List.mem_cons.mp hx with rfl | hx
      · exact hlt
      · exact String.lt_trans hlt (hy x hx)
    · rename_i hlt
      split
      · rename_i heq
        subst heq
        exact List.pairwise_cons.mpr ⟨hy, hrest⟩
      · rename_i hne
        refine List.pairwise_cons.mpr ⟨fun x hx => ?_, ih hrest⟩
        rcases mem_insertEntry name value rest x hx with rfl | hx
        · have hle : key ≤ name := String.not_lt.mp hlt
          exact Std.lt_of_le_of_ne hle (Ne.symm hne)
        · exact hy x hx

def empty : Fields β := ⟨[], .nil⟩

instance : EmptyCollection (Fields β) := ⟨empty⟩

instance : Inhabited (Fields β) := ⟨empty⟩

def insert (f : Fields β) (name : String) (value : β) : Fields β :=
  ⟨insertEntry name value f.entries, sorted_insertEntry name value f.entries f.sorted⟩

def erase (f : Fields β) (name : String) : Fields β :=
  ⟨f.entries.filter (fun e => e.1 ≠ name), f.sorted.filter _⟩

def find (name : String) : List (String × β) → Option β
  | [] => none
  | (key, value) :: rest => if key = name then some value else find name rest

def get? (f : Fields β) (name : String) : Option β := find name f.entries

def names (f : Fields β) : List String := f.entries.map Prod.fst

def size (f : Fields β) : Nat := f.entries.length

def ofList (xs : List (String × β)) : Fields β :=
  xs.foldl (fun f x => f.insert x.1 x.2) empty

/-- Same names and, name by name, values that are equal under `eqv`. -/
def eqvBy (eqv : β → β → Bool) (f g : Fields β) : Bool :=
  f.size == g.size &&
    (f.entries.zip g.entries).all (fun (a, b) => a.1 == b.1 && eqv a.2 b.2)

theorem find_insertEntry (name key : String) (value : β) (xs : List (String × β)) :
    find key (insertEntry name value xs) = if name = key then some value else find key xs := by
  induction xs with
  | nil => simp [insertEntry, find]
  | cons y rest ih =>
    obtain ⟨k, old⟩ := y
    by_cases h : name = key
    · subst h
      by_cases hlt : name < k
      · simp [insertEntry, find, hlt]
      · by_cases heq : name = k
        · subst heq
          simp [insertEntry, find]
        · simp [insertEntry, find, hlt, heq, Ne.symm heq, ih]
    · by_cases hlt : name < k
      · simp [insertEntry, find, hlt, h]
      · by_cases heq : name = k
        · subst heq
          simp [insertEntry, find, h]
        · simp [insertEntry, find, hlt, heq, h, ih]

theorem get?_insert (f : Fields β) (name key : String) (value : β) :
    (f.insert name value).get? key = if name = key then some value else f.get? key :=
  find_insertEntry name key value f.entries

theorem ext_entries {f g : Fields β} (h : f.entries = g.entries) : f = g := by
  cases f
  cases g
  cases h
  rfl

theorem insertEntry_perm {name : String} {xs : List (String × β)} (fresh : name ∉ xs.map Prod.fst)
    (value : β) : (insertEntry name value xs).Perm ((name, value) :: xs) := by
  induction xs with
  | nil => exact .refl _
  | cons y rest ih =>
    obtain ⟨key, old⟩ := y
    rw [List.map_cons, List.mem_cons, not_or] at fresh
    rw [insertEntry, if_neg fresh.1]
    split
    · exact .refl _
    · exact ((ih fresh.2).cons _).trans (.swap _ _ _)

theorem eq_of_perm {f g : Fields β} (h : f.entries.Perm g.entries) : f = g := by
  refine ext_entries (h.eq_of_pairwise ?_ f.sorted g.sorted)
  intro a b _ _ hab hba
  exact absurd hab (String.lt_asymm hba)

theorem entries_foldl_perm {xs : List (String × β)} {f : Fields β}
    (distinct : ((f.entries ++ xs).map Prod.fst).Nodup) :
    (xs.foldl (fun f x => f.insert x.1 x.2) f).entries.Perm (f.entries ++ xs) := by
  induction xs generalizing f with
  | nil =>
    rw [List.append_nil]
    exact .refl _
  | cons x xs ih =>
    have fresh : x.1 ∉ f.entries.map Prod.fst := by
      rw [List.map_append, List.map_cons] at distinct
      intro h
      exact (List.nodup_append.mp distinct).2.2 _ h _ List.mem_cons_self rfl
    have moved : ((f.insert x.1 x.2).entries ++ xs).Perm (f.entries ++ x :: xs) :=
      ((insertEntry_perm fresh x.2).append_right xs).trans List.perm_middle.symm
    exact (ih ((moved.map Prod.fst).nodup_iff.mpr distinct)).trans moved

theorem eq_ofList_iff {xs : List (String × β)} (distinct : (xs.map Prod.fst).Nodup)
    {f : Fields β} : f = ofList xs ↔ f.entries.Perm xs := by
  have held : (ofList xs).entries.Perm xs := entries_foldl_perm distinct
  constructor
  · rintro rfl
    exact held
  · intro h
    exact eq_of_perm (h.trans held.symm)

end Fields

end LedgerScript
