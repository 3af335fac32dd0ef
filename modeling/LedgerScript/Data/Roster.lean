/-!
# Rosters

Values under distinct keys in the order in which the keys first came. A key
that comes again keeps its place and takes the new value.
-/

set_option autoImplicit false

namespace LedgerScript

structure Roster (α β : Type) where
  entries : List (α × β)
  distinct : (entries.map Prod.fst).Nodup

namespace Roster

variable {α β : Type}

def empty : Roster α β := ⟨[], .nil⟩

instance : EmptyCollection (Roster α β) := ⟨empty⟩

instance : Inhabited (Roster α β) := ⟨empty⟩

def keys (r : Roster α β) : List α := r.entries.map Prod.fst

def values (r : Roster α β) : List β := r.entries.map Prod.snd

def size (r : Roster α β) : Nat := r.entries.length

variable [DecidableEq α]

def enter (key : α) (value : β) : List (α × β) → List (α × β)
  | [] => [(key, value)]
  | (k, old) :: rest =>
    if k = key then (k, value) :: rest else (k, old) :: enter key value rest

theorem keys_enter (key : α) (value : β) (xs : List (α × β)) :
    (enter key value xs).map Prod.fst =
      if key ∈ xs.map Prod.fst then xs.map Prod.fst else xs.map Prod.fst ++ [key] := by
  induction xs with
  | nil => simp [enter]
  | cons x rest ih =>
    obtain ⟨k, old⟩ := x
    by_cases h : k = key
    · subst h
      simp [enter]
    · have h' : ¬key = k := fun e => h e.symm
      simp only [enter, h, if_false, List.map_cons, ih, List.mem_cons, h', false_or]
      split <;> simp

theorem distinct_enter (key : α) (value : β) (xs : List (α × β))
    (h : (xs.map Prod.fst).Nodup) : ((enter key value xs).map Prod.fst).Nodup := by
  rw [keys_enter]
  split
  · exact h
  · rename_i hk
    rw [List.nodup_append]
    refine ⟨h, by simp, fun a ha b hb => ?_⟩
    rw [List.mem_singleton] at hb
    subst hb
    exact fun e => hk (e ▸ ha)

def insert (r : Roster α β) (key : α) (value : β) : Roster α β :=
  ⟨enter key value r.entries, distinct_enter key value r.entries r.distinct⟩

def insertAll (r : Roster α β) (keys : List α) (value : β) : Roster α β :=
  keys.foldl (fun r key => r.insert key value) r

def find (key : α) : List (α × β) → Option β
  | [] => none
  | (k, value) :: rest => if k = key then some value else find key rest

def get? (r : Roster α β) (key : α) : Option β := find key r.entries

/-- Same keys, in any order, and key by key values that are equal under `eqv`. -/
def eqvBy (eqv : β → β → Bool) (r s : Roster α β) : Bool :=
  r.size == s.size &&
    r.entries.all (fun (key, value) => (s.get? key).any (eqv value))

theorem find_enter (key k : α) (value : β) (xs : List (α × β)) :
    find k (enter key value xs) = if key = k then some value else find k xs := by
  induction xs with
  | nil => simp [enter, find]
  | cons x rest ih =>
    obtain ⟨a, old⟩ := x
    by_cases h : a = key
    · subst h
      by_cases hk : a = k <;> simp [enter, find, hk]
    · by_cases hk : key = k
      · subst hk
        simp [enter, find, h, ih]
      · by_cases ha : a = k
        · subst ha
          simp [enter, find, h, hk]
        · simp [enter, find, h, hk, ha, ih]

theorem get?_insert (r : Roster α β) (key k : α) (value : β) :
    (r.insert key value).get? k = if key = k then some value else r.get? k :=
  find_enter key k value r.entries

theorem keys_insert (r : Roster α β) (key : α) (value : β) :
    (r.insert key value).keys = if key ∈ r.keys then r.keys else r.keys ++ [key] :=
  keys_enter key value r.entries

end Roster

end LedgerScript
