import Mathlib
import LedgerScript.Language.Failure

/-!
# Actions on a ledger

What an action does from a given ledger state. An action that fails has still led to a
state, and whoever handles the failure goes on from there.
-/

set_option autoImplicit false

namespace LedgerScript

variable {σ ε ε' ε'' α β : Type}

theorem exists_of_bind_eq_ok {a : Except ε α} {g : α → Except ε β} {b : β}
    (h : a >>= g = .ok b) : ∃ c, a = .ok c ∧ g c = .ok b := by
  cases a with
  | error cause => cases h
  | ok c => exact ⟨c, rfl, h⟩

namespace LedgerM

theorem bind_apply (x : LedgerM σ ε α) (f : α → LedgerM σ ε β) (s : σ) :
    (x >>= f) s =
      match x s with
      | (.ok a, t) => f a t
      | (.error e, t) => (.error e, t) := by
  simp only [bind, ExceptT.bind, ExceptT.mk, StateT.bind]
  rcases x s with ⟨e | a, t⟩ <;> rfl

theorem map_apply (f : α → β) (x : LedgerM σ ε α) (s : σ) :
    (f <$> x) s = ((x s).1.map f, (x s).2) := by
  simp only [Functor.map, ExceptT.map, ExceptT.mk, bind, StateT.bind]
  rcases x s with ⟨e | a, t⟩ <;> rfl

theorem snd_map (f : α → β) (x : LedgerM σ ε α) (s : σ) : ((f <$> x) s).2 = (x s).2 := by
  rw [map_apply]

theorem restate_apply (x : LedgerM σ ε α) (f : ε → ε') (s : σ) :
    x.restate f s = ((x s).1.mapError f, (x s).2) := by
  simp only [restate, ExceptT.adapt, ExceptT.mk, Functor.map, StateT.map, bind]
  rcases x s with ⟨e | a, t⟩ <;> rfl

theorem bind_ok {x : LedgerM σ ε α} {s t : σ} {a : α} (h : x s = (.ok a, t))
    (f : α → LedgerM σ ε β) : (x >>= f) s = f a t := by
  rw [bind_apply, h]

theorem bind_error {x : LedgerM σ ε α} {s t : σ} {e : ε} (h : x s = (.error e, t))
    (f : α → LedgerM σ ε β) : (x >>= f) s = (.error e, t) := by
  rw [bind_apply, h]

theorem get_bind (f : σ → LedgerM σ ε β) (s : σ) : ((get : LedgerM σ ε σ) >>= f) s = f s s := rfl

theorem lift_apply (x : Except ε α) (s : σ) : (liftM x : LedgerM σ ε α) s = (x, s) := by
  cases x <;> rfl

theorem lift_bind_ok {x : Except ε α} {a : α} (h : x = .ok a) (f : α → LedgerM σ ε β) (s : σ) :
    ((liftM x : LedgerM σ ε α) >>= f) s = f a s := by
  rw [h]
  rfl

theorem lift_bind_error {x : Except ε α} {e : ε} (h : x = .error e) (f : α → LedgerM σ ε β)
    (s : σ) : ((liftM x : LedgerM σ ε α) >>= f) s = (.error e, s) := by
  rw [h]
  rfl

theorem lift_bind (x : Except ε α) (f : α → Except ε β) :
    (liftM (x >>= f) : LedgerM σ ε β) = liftM x >>= fun a => liftM (f a) := by
  cases x <;> rfl

theorem lift_eq_ok {x : Except ε α} {a : α} {s t : σ} :
    (liftM x : LedgerM σ ε α) s = (.ok a, t) ↔ x = .ok a ∧ s = t := by
  cases x with
  | error e =>
    constructor
    · intro h
      cases h
    · rintro ⟨h, -⟩
      cases h
  | ok b =>
    constructor
    · intro h
      cases h
      exact ⟨rfl, rfl⟩
    · rintro ⟨h, rfl⟩
      cases h
      rfl

theorem bind_eq_ok {x : LedgerM σ ε α} {f : α → LedgerM σ ε β} {s t : σ} {b : β} :
    (x >>= f) s = (.ok b, t) ↔ ∃ a u, x s = (.ok a, u) ∧ f a u = (.ok b, t) := by
  rw [bind_apply]
  constructor
  · intro h
    rcases hx : x s with ⟨e | a, u⟩
    · rw [hx] at h
      cases h
    · rw [hx] at h
      exact ⟨a, u, rfl, h⟩
  · rintro ⟨a, u, hx, hf⟩
    rw [hx]
    exact hf

theorem bind_eq_error {x : LedgerM σ ε α} {f : α → LedgerM σ ε β} {s t : σ} {e : ε} :
    (x >>= f) s = (.error e, t) ↔
      x s = (.error e, t) ∨ ∃ a u, x s = (.ok a, u) ∧ f a u = (.error e, t) := by
  rw [bind_apply]
  constructor
  · intro h
    rcases hx : x s with ⟨c | a, u⟩
    · rw [hx] at h
      cases h
      exact .inl rfl
    · rw [hx] at h
      exact .inr ⟨a, u, rfl, h⟩
  · rintro (hx | ⟨a, u, hx, hf⟩)
    · rw [hx]
    · rw [hx]
      exact hf

theorem map_ok {x : LedgerM σ ε α} {s t : σ} {a : α} (h : x s = (.ok a, t)) (f : α → β) :
    (f <$> x) s = (.ok (f a), t) := by
  rw [map_apply, h]
  rfl

theorem map_error {x : LedgerM σ ε α} {s t : σ} {e : ε} (h : x s = (.error e, t))
    (f : α → β) : (f <$> x) s = (.error e, t) := by
  rw [map_apply, h]
  rfl

theorem map_eq_ok {x : LedgerM σ ε α} {f : α → β} {s t : σ} {b : β} :
    (f <$> x) s = (.ok b, t) ↔ ∃ a, x s = (.ok a, t) ∧ f a = b := by
  rw [map_apply]
  rcases x s with ⟨e | a, u⟩
  · constructor
    · intro h
      cases h
    · rintro ⟨a, h, -⟩
      cases h
  · constructor
    · intro h
      cases h
      exact ⟨a, rfl, rfl⟩
    · rintro ⟨c, h, rfl⟩
      cases h
      rfl

theorem restate_ok {x : LedgerM σ ε α} {s t : σ} {a : α} (h : x s = (.ok a, t))
    (f : ε → ε') : x.restate f s = (.ok a, t) := by
  rw [restate_apply, h]
  rfl

theorem restate_error {x : LedgerM σ ε α} {s t : σ} {e : ε} (h : x s = (.error e, t))
    (f : ε → ε') : x.restate f s = (.error (f e), t) := by
  rw [restate_apply, h]
  rfl

theorem restate_eq_ok {x : LedgerM σ ε α} {f : ε → ε'} {s t : σ} {a : α} :
    x.restate f s = (.ok a, t) ↔ x s = (.ok a, t) := by
  rw [restate_apply]
  rcases x s with ⟨e | b, u⟩
  · constructor <;> intro h <;> cases h
  · constructor <;> intro h <;> cases h <;> rfl

theorem restate_eq_error {x : LedgerM σ ε α} {f : ε → ε'} {s t : σ} {e : ε'} :
    x.restate f s = (.error e, t) ↔ ∃ c, x s = (.error c, t) ∧ f c = e := by
  rw [restate_apply]
  constructor
  · intro h
    rcases hx : x s with ⟨c | a, u⟩
    · rw [hx] at h
      cases h
      exact ⟨c, rfl, rfl⟩
    · rw [hx] at h
      cases h
  · rintro ⟨c, hx, rfl⟩
    rw [hx]
    rfl

theorem handle_ok {x : LedgerM σ ε α} {s t : σ} {a : α} (h : x s = (.ok a, t))
    (f : ε → LedgerM σ ε' α) : x.handle f s = (.ok a, t) := by
  rw [handle, h]

theorem handle_error {x : LedgerM σ ε α} {s t : σ} {e : ε} (h : x s = (.error e, t))
    (f : ε → LedgerM σ ε' α) : x.handle f s = f e t := by
  rw [handle, h]

theorem restate_id (x : LedgerM σ ε α) : (x.restate fun e => e) = x := by
  funext s
  rw [restate_apply]
  rcases x s with ⟨e | a, t⟩ <;> rfl

theorem restate_restate (x : LedgerM σ ε α) (f : ε → ε') (g : ε' → ε'') :
    (x.restate f).restate g = x.restate fun e => g (f e) := by
  funext s
  rw [restate_apply, restate_apply, restate_apply]
  rcases x s with ⟨e | a, t⟩ <;> rfl

theorem restate_handle (x : LedgerM σ ε α) (f : ε → LedgerM σ ε' α) (g : ε' → ε'') :
    (x.handle f).restate g = x.handle fun e => (f e).restate g := by
  funext s
  rw [restate_apply, handle, handle]
  rcases x s with ⟨e | a, t⟩
  · exact (restate_apply (f e) g t).symm
  · rfl

theorem handle_restate (x : LedgerM σ ε α) (f : ε → ε') (g : ε' → LedgerM σ ε'' α) :
    (x.restate f).handle g = x.handle fun e => g (f e) := by
  funext s
  rw [handle, handle, restate_apply]
  rcases x s with ⟨e | a, t⟩ <;> rfl

theorem handle_handle (x : LedgerM σ ε α) (f : ε → LedgerM σ ε' α) (g : ε' → LedgerM σ ε'' α) :
    (x.handle f).handle g = x.handle fun e => (f e).handle g := by
  funext s
  rw [handle, handle, handle]
  rcases x s with ⟨e | a, t⟩ <;> rfl

/-- Where it is known how an action can end, and that it ends so, it ends just so. -/
theorem iff_of_total {x : LedgerM σ ε α} {s : σ} {Done : α → σ → Prop} {Failed : ε → σ → Prop}
    (done : ∀ a t, Done a t → x s = (.ok a, t)) (failed : ∀ e t, Failed e t → x s = (.error e, t))
    (total : (∃ a t, Done a t) ∨ ∃ e t, Failed e t) :
    (∀ a t, x s = (.ok a, t) ↔ Done a t) ∧ ∀ e t, x s = (.error e, t) ↔ Failed e t := by
  rcases total with ⟨a, t, h⟩ | ⟨e, t, h⟩
  · have hx := done a t h
    refine ⟨fun b u => ⟨fun hb => ?_, done b u⟩, fun e u => ⟨fun he => ?_, failed e u⟩⟩
    · rw [hx] at hb
      cases hb
      exact h
    · rw [hx] at he
      cases he
  · have hx := failed e t h
    refine ⟨fun b u => ⟨fun hb => ?_, done b u⟩, fun c u => ⟨fun hc => ?_, failed c u⟩⟩
    · rw [hx] at hb
      cases hb
    · rw [hx] at hc
      cases hc
      exact h

theorem forall_of_mapM_eq_ok {f : α → LedgerM σ ε β} {P : β → Prop}
    (hf : ∀ a b s t, f a s = (.ok b, t) → P b) {xs : List α} {ys : List β} {s t : σ}
    (h : (xs.mapM f) s = (.ok ys, t)) : ∀ y ∈ ys, P y := by
  induction xs generalizing ys s with
  | nil =>
    cases h
    exact List.forall_mem_nil P
  | cons a rest ih =>
    rw [List.mapM_cons] at h
    obtain ⟨b, u, hb, hrest⟩ := bind_eq_ok.mp h
    obtain ⟨bs, v, hbs, hpure⟩ := bind_eq_ok.mp hrest
    cases hpure
    exact List.forall_mem_cons.mpr ⟨hf a b s u hb, ih hbs⟩

theorem bind_congr_of_ok {x : LedgerM σ ε α} {f g : α → LedgerM σ ε β}
    (same : ∀ a s t, x s = (.ok a, t) → f a = g a) : x >>= f = x >>= g := by
  funext s
  rcases hx : x s with ⟨e | a, t⟩
  · rw [bind_error hx, bind_error hx]
  · rw [bind_ok hx, bind_ok hx, same a s t hx]

theorem mapM_congr {f g : α → LedgerM σ ε β} {xs : List α} (same : ∀ a ∈ xs, f a = g a) :
    xs.mapM f = xs.mapM g := by
  induction xs with
  | nil => rfl
  | cons a rest ih =>
    rw [List.mapM_cons, List.mapM_cons, same a List.mem_cons_self,
      ih fun b hb => same b (List.mem_cons_of_mem a hb)]

section Within

variable {R : σ → σ → Prop}

/-- Whatever ledger the action finds, it is related to the one that the action leaves. -/
def Within (R : σ → σ → Prop) (x : LedgerM σ ε α) : Prop := ∀ s, R s (x s).2

variable {x : LedgerM σ ε α}

theorem within_ofExcept [Std.Refl R] (r : Except ε α) : (ofExcept r : LedgerM σ ε α).Within R :=
  fun s => refl_of R s

theorem within_pure [Std.Refl R] (a : α) : (pure a : LedgerM σ ε α).Within R :=
  fun s => refl_of R s

theorem within_throw [Std.Refl R] (e : ε) : (throw e : LedgerM σ ε α).Within R :=
  fun s => refl_of R s

theorem within_lift [Std.Refl R] (r : Except ε α) : (liftM r : LedgerM σ ε α).Within R := by
  intro s
  cases r <;> exact refl_of R s

theorem Within.bind_of_ok [IsTrans σ R] {f : α → LedgerM σ ε β} (hx : x.Within R)
    (hf : ∀ a s t, x s = (.ok a, t) → (f a).Within R) : (x >>= f).Within R := by
  intro s
  have hs := hx s
  rw [bind_apply]
  rcases hxs : x s with ⟨e | a, t⟩
  · rwa [hxs] at hs
  · rw [hxs] at hs
    exact trans_of R hs (hf a s t hxs t)

theorem Within.bind [IsTrans σ R] {f : α → LedgerM σ ε β} (hx : x.Within R)
    (hf : ∀ a, (f a).Within R) : (x >>= f).Within R :=
  hx.bind_of_ok fun a _ _ _ => hf a

theorem Within.map (hx : x.Within R) (f : α → β) : (f <$> x).Within R := by
  intro s
  rw [map_apply]
  exact hx s

theorem Within.restate (hx : x.Within R) (f : ε → ε') : (x.restate f).Within R := by
  intro s
  rw [restate_apply]
  exact hx s

theorem Within.handle [IsTrans σ R] {f : ε → LedgerM σ ε' α} (hx : x.Within R)
    (hf : ∀ e, (f e).Within R) : (x.handle f).Within R := by
  intro s
  have hs := hx s
  rw [LedgerM.handle]
  rcases hxs : x s with ⟨e | a, t⟩
  · rw [hxs] at hs
    exact trans_of R hs (hf e t)
  · rwa [hxs] at hs

theorem Within.mono {S : σ → σ → Prop} (hx : x.Within R) (h : ∀ s t, R s t → S s t) :
    x.Within S :=
  fun s => h s _ (hx s)

theorem within_mapM [IsPreorder σ R] {f : α → LedgerM σ ε β} (hf : ∀ a, (f a).Within R)
    (xs : List α) : (xs.mapM f).Within R := by
  induction xs with
  | nil => exact within_pure []
  | cons a rest ih =>
    rw [List.mapM_cons]
    exact (hf a).bind fun b => ih.bind fun bs => within_pure (b :: bs)

end Within

end LedgerM

end LedgerScript
