import LedgerScript.Proofs.Footprint
import LedgerScript.Proofs.Supply

/-!
# Binding by position

What a parameter makes of its share of the tokens is a value, or else it tells why there is none.
One of these holds of every parameter and every share, and binding does nothing but to follow what
holds of the parameters in their order. So the outcome of a binding can be told from what each
parameter makes of the tokens in its place.
-/

set_option autoImplicit false

namespace LedgerScript

variable {σ : Type}

namespace Param

/-- Reads a token: as a whole, or each item of a list. -/
inductive Reads (p : Param σ) (scope : Scope σ) :
    Event → Except ArgumentError Value → σ → σ → Prop
  | whole {token : Event} {r : Except ArgumentError Value} {s t : σ} (whole : p.mapped = false)
      (read : p.shape.read scope token s = (r, t)) : Reads p scope token r s t
  | each {es : List Event} {r : Except ArgumentError (List Value)} {s t : σ}
      (mapped : p.mapped = true) (read : (es.mapM (p.shape.read scope)) s = (r, t)) :
      Reads p scope (.list es) (r.map Value.list) s t

abbrev Required (p : Param σ) : Prop := p.nullable = false ∧ p.ifMissing = none

/-- The token that an explicit parameter is to read: that of its share, or its whole share in
parentheses if it is variadic. It reads an empty share only if it is required. -/
structure Offered (p : Param σ) (share : List Event) (token : Event) : Prop where
  explicit : p.implicit = none
  needed : share ≠ [] ∨ p.Required
  offered : (if p.variadic then some (.list share) else share.head?) = some token

/-- The value that a parameter is bound to by its share. -/
inductive Accepts (p : Param σ) (scope : Scope σ) : List Event → Value → σ → σ → Prop
  | resolved {resolver : Resolver} {share : List Event} {v : Value}
      (implicit : p.implicit = some resolver)
      (resolves : resolver scope.world scope.lastFailure = .ok v) (s : σ) :
      Accepts p scope share v s s
  | replaced {resolver : Resolver} {share : List Event} {c : ArgumentError} {v : Value}
      (implicit : p.implicit = some resolver)
      (fails : resolver scope.world scope.lastFailure = .error c) (rescue : p.ifRefused = some v)
      (s : σ) : Accepts p scope share v s s
  | nothing (explicit : p.implicit = none) (nullable : p.nullable = true) (s : σ) :
      Accepts p scope [] .nothing s s
  | default {v : Value} (explicit : p.implicit = none) (solid : p.nullable = false)
      (missing : p.ifMissing = some v) (s : σ) : Accepts p scope [] v s s
  | read {share : List Event} {token : Event} {v : Value} {s t : σ}
      (offered : p.Offered share token) (read : p.Reads scope token (.ok v) s t) :
      Accepts p scope share v s t
  | rescued {share : List Event} {token : Event} {c : ArgumentError} {v : Value} {s t : σ}
      (offered : p.Offered share token) (unread : p.Reads scope token (.error c) s t)
      (rescue : p.ifRefused = some v) : Accepts p scope share v s t

/-- Why a parameter cannot be bound by its share. -/
inductive Rejects (p : Param σ) (scope : Scope σ) : List Event → Refusal → σ → σ → Prop
  | unresolved {resolver : Resolver} {share : List Event} {c : ArgumentError}
      (implicit : p.implicit = some resolver)
      (fails : resolver scope.world scope.lastFailure = .error c) (strict : p.ifRefused = none)
      (s : σ) : Rejects p scope share (.argument p.name c) s s
  | missing (explicit : p.implicit = none) (single : p.variadic = false)
      (required : p.Required) (s : σ) :
      Rejects p scope [] (.missing p.name) s s
  | notAList {share : List Event} {word : String} (offered : p.Offered share (.atom word))
      (mapped : p.mapped = true) (s : σ) :
      Rejects p scope share (.notAList p.name (Event.atom word).text) s s
  | unread {share : List Event} {token : Event} {c : ArgumentError} {s t : σ} (given : share ≠ [])
      (offered : p.Offered share token) (unread : p.Reads scope token (.error c) s t)
      (strict : p.ifRefused = none) : Rejects p scope share (.argument p.name c) s t
  | vacant {token : Event} {c : ArgumentError} {s t : σ} (offered : p.Offered [] token)
      (unread : p.Reads scope token (.error c) s t) (strict : p.ifRefused = none) :
      Rejects p scope [] (.missing p.name) s t

variable {p : Param σ} {scope : Scope σ} {share : List Event} {token : Event} {s t : σ}

theorem Offered.variadic_or_single (h : p.Offered share token) :
    p.variadic = true ∧ token = .list share ∨
      p.variadic = false ∧ ∃ more, share = token :: more := by
  have offered := h.offered
  cases variadic : p.variadic with
  | true =>
    rw [if_pos variadic] at offered
    exact .inl ⟨rfl, (Option.some.inj offered).symm⟩
  | false =>
    rw [if_neg (ne_true_of_eq_false variadic)] at offered
    exact .inr ⟨rfl, List.head?_eq_some_iff.mp offered⟩

theorem absent?_eq_none (required : p.Required) : p.absent? = none := by
  rw [absent?, required.1, required.2]
  rfl

def settled (p : Param σ) (share : List Event) : Except ArgumentError Value → Except Refusal Value
  | .ok v => .ok v
  | .error c =>
    if share.isEmpty && p.ifRefused.isNone then .error (.missing p.name) else p.refused c

theorem settled_of_rescue {v : Value} (rescue : p.ifRefused = some v) (share : List Event)
    (c : ArgumentError) : p.settled share (.error c) = .ok v := by
  simp [settled, refused, rescue]

theorem bindRest_of_needed (needed : share ≠ [] ∨ p.Required)
    {r : Except ArgumentError Value} (read : p.readRest scope share s = (r, t)) :
    p.bindRest scope share s = (p.settled share r, t) := by
  have second : p.bindRest scope share = (p.readRest scope share).handle fun e =>
      if share.isEmpty && p.ifRefused.isNone then throw (.missing p.name)
      else .ofExcept (p.refused e) := by
    rw [bindRest]
    split
    · next v empty absent =>
      rcases needed with given | required
      · exact absurd (List.isEmpty_iff.mp empty) given
      · rw [absent?_eq_none required] at absent
        cases absent
    · rfl
  rw [second, LedgerM.handle, read]
  cases r with
  | ok v => rfl
  | error c =>
    dsimp only
    rw [settled]
    split <;> rfl

theorem readEach_of_mapM {es : List Event} {r : Except ArgumentError (List Value)}
    (read : (es.mapM (p.shape.read scope)) s = (r, t)) :
    p.readEach scope es s = (r.map Value.list, t) := by
  rw [readEach, LedgerM.bind_apply, read]
  cases r <;> rfl

theorem readRest_of_reads {r : Except ArgumentError Value}
    (reads : p.Reads scope (.list share) r s t) : p.readRest scope share s = (r, t) := by
  rw [readRest]
  cases reads with
  | whole whole read => rwa [if_neg (ne_true_of_eq_false whole)]
  | each mapped read =>
    rw [if_pos mapped]
    exact readEach_of_mapM read

theorem bindToken_of_reads {r : Except ArgumentError Value} (reads : p.Reads scope token r s t)
    (more : List Event) : p.bindToken scope token s = (p.settled (token :: more) r, t) := by
  rw [bindToken.eq_def]
  cases reads with
  | whole whole read =>
    rw [if_neg (ne_true_of_eq_false whole), LedgerM.handle, read]
    cases r <;> rfl
  | each mapped read =>
    rw [if_pos mapped]
    dsimp only
    rw [LedgerM.handle, readEach_of_mapM read]
    next r => cases r <;> rfl

theorem supply_of_reads (offered : p.Offered share token) {r : Except ArgumentError Value}
    (reads : p.Reads scope token r s t) : p.supply scope share s = (p.settled share r, t) := by
  rcases offered.variadic_or_single with ⟨variadic, rfl⟩ | ⟨single, more, rfl⟩
  · rw [supply_of_variadic offered.explicit variadic]
    exact bindRest_of_needed offered.needed (readRest_of_reads reads)
  · rw [supply_cons offered.explicit single]
    exact bindToken_of_reads reads more

theorem supply_of_bindImplicit {resolver : Resolver} (implicit : p.implicit = some resolver)
    {r : Except Refusal Value}
    (bound : p.bindImplicit resolver scope.world scope.lastFailure = r) (s : σ) :
    p.supply scope share s = (r, s) := by
  rw [supply_of_implicit implicit, LedgerM.lift_apply, bound]

theorem supply_of_absent {v : Value} (explicit : p.implicit = none) (absent : p.absent? = some v)
    (s : σ) : p.supply scope [] s = (.ok v, s) := by
  cases variadic : p.variadic with
  | true =>
    rw [supply_of_variadic explicit variadic, bindRest, absent]
    rfl
  | false =>
    rw [supply_nil explicit variadic, bindMissing, absent]
    rfl

theorem supply_of_accepts {v : Value} (accepted : p.Accepts scope share v s t) :
    p.supply scope share s = (.ok v, t) := by
  cases accepted with
  | resolved implicit resolves =>
    exact supply_of_bindImplicit implicit (by rw [bindImplicit, resolves]) s
  | replaced implicit fails rescue =>
    exact supply_of_bindImplicit implicit (by rw [bindImplicit, fails]; simp [refused, rescue]) s
  | nothing explicit nullable => exact supply_of_absent explicit (by simp [absent?, nullable]) s
  | default explicit solid missing =>
    exact supply_of_absent explicit (by simp [absent?, solid, missing]) s
  | read offered read => exact supply_of_reads offered read
  | rescued offered unread rescue =>
    rw [supply_of_reads offered unread, settled_of_rescue rescue]

theorem supply_of_rejects {r : Refusal} (rejected : p.Rejects scope share r s t) :
    p.supply scope share s = (.error r, t) := by
  cases rejected with
  | unresolved implicit fails strict =>
    exact supply_of_bindImplicit implicit (by rw [bindImplicit, fails]; simp [refused, strict]) s
  | missing explicit single required =>
    rw [supply_nil explicit single, bindMissing, absent?_eq_none required]
    rfl
  | @notAList _ word offered mapped =>
    rcases offered.variadic_or_single with ⟨variadic, hlist⟩ | ⟨single, more, rfl⟩
    · cases hlist
    · rw [supply_cons offered.explicit single, bindToken.eq_def, if_pos mapped]
      rfl
  | unread given offered unread strict =>
    rw [supply_of_reads offered unread]
    simp [settled, refused, strict, given]
  | vacant offered unread strict =>
    rw [supply_of_reads offered unread]
    simp [settled, strict]

theorem reads_or_notAList (p : Param σ) (scope : Scope σ) (token : Event) (s : σ) :
    (∃ r t, p.Reads scope token r s t) ∨ p.mapped = true ∧ ∃ word, token = .atom word := by
  cases mapped : p.mapped with
  | false => exact .inl ⟨_, _, .whole mapped rfl⟩
  | true =>
    cases token with
    | atom word => exact .inr ⟨rfl, word, rfl⟩
    | list es => exact .inl ⟨_, _, .each mapped rfl⟩

theorem accepts_or_rejects_of_offered (offered : p.Offered share token) (scope : Scope σ) (s : σ) :
    (∃ v t, p.Accepts scope share v s t) ∨ ∃ r t, p.Rejects scope share r s t := by
  rcases p.reads_or_notAList scope token s with ⟨v | c, t, reads⟩ | ⟨mapped, word, rfl⟩
  · cases rescue : p.ifRefused with
    | some v => exact .inl ⟨v, t, .rescued offered reads rescue⟩
    | none =>
      by_cases empty : share = []
      · subst empty
        exact .inr ⟨_, t, .vacant offered reads rescue⟩
      · exact .inr ⟨_, t, .unread empty offered reads rescue⟩
  · exact .inl ⟨_, t, .read offered reads⟩
  · exact .inr ⟨_, s, .notAList offered mapped s⟩

theorem accepts_or_rejects (p : Param σ) (scope : Scope σ) (share : List Event) (s : σ) :
    (∃ v t, p.Accepts scope share v s t) ∨ ∃ r t, p.Rejects scope share r s t := by
  cases implicit : p.implicit with
  | some resolver =>
    cases resolves : resolver scope.world scope.lastFailure with
    | ok v => exact .inl ⟨v, s, .resolved implicit resolves s⟩
    | error c =>
      cases rescue : p.ifRefused with
      | some v => exact .inl ⟨v, s, .replaced implicit resolves rescue s⟩
      | none => exact .inr ⟨_, s, .unresolved implicit resolves rescue s⟩
  | none =>
    by_cases needed : share ≠ [] ∨ p.Required
    · cases offered : if p.variadic then some (Event.list share) else share.head? with
      | some token => exact accepts_or_rejects_of_offered ⟨implicit, needed, offered⟩ scope s
      | none =>
        split at offered
        · cases offered
        · next single =>
          obtain rfl := List.head?_eq_none_iff.mp offered
          have required := needed.resolve_left (absurd rfl)
          exact .inr ⟨_, s, .missing implicit (Bool.eq_false_iff.mpr single) required s⟩
    · rw [not_or, not_not] at needed
      obtain ⟨rfl, absent⟩ := needed
      cases nullable : p.nullable with
      | true => exact .inl ⟨_, s, .nothing implicit nullable s⟩
      | false =>
        have given : p.ifMissing ≠ none := fun missing => absent ⟨nullable, missing⟩
        obtain ⟨v, missing⟩ := Option.ne_none_iff_exists'.mp given
        exact .inl ⟨v, s, .default implicit nullable missing s⟩

theorem within_supply {R : σ → σ → Prop} [IsPreorder σ R] (h : p.shape.Within R scope)
    (share : List Event) : (p.supply scope share).Within R := by
  rw [supply.eq_def]
  split
  · exact LedgerM.within_lift _
  · split
    · exact within_bindRest h share
    · split
      · exact LedgerM.within_lift _
      · exact within_bindToken h _

end Param

namespace Arguments

/-- Parameters are bound to values by their shares, one after the other. -/
inductive Supplied (scope : Scope σ) : List (Param σ × List Event) → List Value → σ → σ → Prop
  | nil (s : σ) : Supplied scope [] [] s s
  | cons {p : Param σ} {share : List Event} {rest : List (Param σ × List Event)} {v : Value}
      {vs : List Value} {s t u : σ} (accepted : p.Accepts scope share v s t)
      (later : Supplied scope rest vs t u) : Supplied scope ((p, share) :: rest) (v :: vs) s u

/-- Parameters are bound by their shares up to one that cannot be. -/
inductive Stopped (scope : Scope σ) : List (Param σ × List Event) → Refusal → σ → σ → Prop
  | here {p : Param σ} {share : List Event} {rest : List (Param σ × List Event)} {r : Refusal}
      {s t : σ} (rejected : p.Rejects scope share r s t) : Stopped scope ((p, share) :: rest) r s t
  | later {p : Param σ} {share : List Event} {rest : List (Param σ × List Event)} {v : Value}
      {r : Refusal} {s t u : σ} (accepted : p.Accepts scope share v s t)
      (later : Stopped scope rest r t u) : Stopped scope ((p, share) :: rest) r s u

variable {scope : Scope σ} {xs : List (Param σ × List Event)} {values : List Value} {s t : σ}

theorem supplyAll_of_supplied (supplied : Supplied scope xs values s t) (b : Arguments) :
    supplyAll scope xs b s =
      (.ok (((xs.map (·.1.name)).zip values).foldl (fun f x => f.insert x.1 x.2) b), t) := by
  induction supplied generalizing b with
  | nil s => rfl
  | cons accepted _ ih =>
    rw [supplyAll, LedgerM.bind_ok (Param.supply_of_accepts accepted)]
    exact ih _

theorem supplyAll_of_stopped {r : Refusal} (stopped : Stopped scope xs r s t) (b : Arguments) :
    supplyAll scope xs b s = (.error r, t) := by
  induction stopped generalizing b with
  | here rejected => exact LedgerM.bind_error (Param.supply_of_rejects rejected) _
  | later accepted _ ih =>
    rw [supplyAll, LedgerM.bind_ok (Param.supply_of_accepts accepted)]
    exact ih _

theorem supplied_or_stopped (scope : Scope σ) (xs : List (Param σ × List Event)) (s : σ) :
    (∃ values t, Supplied scope xs values s t) ∨ ∃ r t, Stopped scope xs r s t := by
  induction xs generalizing s with
  | nil => exact .inl ⟨[], s, .nil s⟩
  | cons x xs ih =>
    rcases x.1.accepts_or_rejects scope x.2 s with ⟨v, t, accepted⟩ | ⟨r, t, rejected⟩
    · rcases ih t with ⟨values, u, supplied⟩ | ⟨r, u, stopped⟩
      · exact .inl ⟨v :: values, u, .cons accepted supplied⟩
      · exact .inr ⟨r, u, .later accepted stopped⟩
    · exact .inr ⟨r, t, .here rejected⟩

theorem supplied_iff_alone (quiet : ∀ x ∈ xs, x.1.shape.Within Eq scope) :
    Supplied scope xs values s t ↔
      t = s ∧ List.Forall₂ (fun x v => x.1.Accepts scope x.2 v s s) xs values := by
  constructor
  · intro h
    induction h with
    | nil s => exact ⟨rfl, .nil⟩
    | @cons p share rest v vs s t u accepted later ih =>
      obtain ⟨hp, hrest⟩ := List.forall_mem_cons.mp quiet
      have same := p.within_supply hp share s
      rw [Param.supply_of_accepts accepted] at same
      subst same
      exact ⟨(ih hrest).1, .cons accepted (ih hrest).2⟩
  · rintro ⟨rfl, h⟩
    induction h with
    | nil => exact .nil t
    | cons accepted _ ih => exact .cons accepted (ih (List.forall_mem_cons.mp quiet).2)

end Arguments

namespace Params

theorem misplacedVariadic?_cons {p : Param σ} {ps : List (Param σ)}
    (placed : misplacedVariadic? (p :: ps) = none) :
    (p.variadic = true → ps = []) ∧ misplacedVariadic? ps = none := by
  rw [misplacedVariadic?] at placed
  cases variadic : p.variadic with
  | true =>
    rw [List.dropWhile_cons_of_neg (by rw [variadic]; decide)] at placed
    cases ps with
    | nil => exact ⟨fun _ => rfl, rfl⟩
    | cons q qs => cases placed
  | false =>
    rw [List.dropWhile_cons_of_pos (by rw [variadic]; decide)] at placed
    exact ⟨fun h => absurd h Bool.false_ne_true, placed⟩

theorem portions_eq_mapIdx {ps : List (Param σ)} (placed : misplacedVariadic? ps = none)
    (rest : List Event) :
    portions ps rest = ps.mapIdx fun i p => (p, p.share (rest.drop i)) := by
  induction ps generalizing rest with
  | nil => rfl
  | cons p ps ih =>
    obtain ⟨last, placed⟩ := misplacedVariadic?_cons placed
    rw [portions, List.mapIdx_cons, List.drop_zero]
    cases variadic : p.variadic with
    | true =>
      obtain rfl := last variadic
      rfl
    | false =>
      rw [ih placed, Param.share_of_single variadic]
      cases rest <;> simp

theorem map_fst_portions (ps : List (Param σ)) (rest : List Event) :
    (portions ps rest).map Prod.fst = ps := by
  induction ps generalizing rest with
  | nil => rfl
  | cons p ps ih => rw [portions, List.map_cons, ih]

variable (params : List (Param σ)) (tokens : List Event)

theorem map_fst_supplies_perm : ((supplies params tokens).map Prod.fst).Perm params := by
  have order : (supplies params tokens).map Prod.fst = implicits params ++ explicits params := by
    rw [supplies, List.map_append, List.map_map, map_fst_portions]
    exact congrArg (· ++ _) (List.map_id _)
  rw [order]
  exact List.filter_append_perm Param.isImplicit params

theorem supplies_eq_mapIdx {params : List (Param σ)} (accepted : complaint? params = none)
    (tokens : List Event) :
    supplies params tokens = (implicits params).map (·, []) ++
      (explicits params).mapIdx fun i p => (p, p.share (tokens.drop i)) := by
  rw [complaint?] at accepted
  split at accepted
  · cases accepted
  · next placed => exact congrArg _ (portions_eq_mapIdx placed tokens)

theorem nodup_names {params : List (Param σ)} (accepted : complaint? params = none)
    (tokens : List Event) : ((supplies params tokens).map (·.1.name)).Nodup := by
  have names := (map_fst_supplies_perm params tokens).map Param.name
  rw [List.map_map] at names
  exact names.nodup_iff.mpr (nodup_of_complaint? accepted)

/-- A parameter takes each token, or leftovers are allowed. -/
def Room (allowExtra : Bool) : Prop :=
  tokens.length ≤ (explicits params).length ∨ (∃ p ∈ explicits params, p.variadic = true) ∨
    allowExtra = true

theorem room_iff (allowExtra : Bool) :
    Room params tokens allowExtra ↔ ((leftovers params tokens).isEmpty || allowExtra) = true := by
  rw [Room, leftovers, Bool.or_eq_true, ← or_assoc]
  refine or_congr_left ?_
  split
  · next variadic => exact iff_of_true (.inr (List.any_eq_true.mp variadic)) rfl
  · next single =>
    rw [or_iff_left (mt List.any_eq_true.mpr single), List.isEmpty_iff, List.drop_eq_nil_iff]

theorem leftovers_of_not_room {allowExtra : Bool} (noRoom : ¬ Room params tokens allowExtra) :
    leftovers params tokens = tokens.drop (explicits params).length := by
  rw [Room, not_or, not_or] at noRoom
  exact if_neg (mt List.any_eq_true.mp noRoom.2.1)

theorem flatMap_supplies_append :
    (supplies params tokens).flatMap Prod.snd ++ leftovers params tokens = tokens := by
  have taken : (supplies params tokens).flatMap Prod.snd =
      (portions (explicits params) tokens).flatMap Prod.snd := by
    simp [supplies, List.flatMap_append, List.flatMap_map]
  rw [taken, flatMap_portions, leftovers]
  split
  · exact List.append_nil tokens
  · exact List.take_append_drop _ tokens

end Params

namespace Arguments

variable {scope : Scope σ} {params : List (Param σ)} {tokens : List Event} {values : List Value}
  {s t : σ}

theorem Supplied.length_eq {xs : List (Param σ × List Event)} (h : Supplied scope xs values s t) :
    values.length = xs.length := by
  induction h with
  | nil => rfl
  | cons _ _ ih => rw [List.length_cons, List.length_cons, ih]

theorem bind_of_supplied (supplied : Supplied scope (Params.supplies params tokens) values s t)
    (allowExtra : Bool) :
    bind scope params tokens allowExtra s =
      (leftover (Params.leftovers params tokens) allowExtra
        (Fields.ofList (((Params.supplies params tokens).map (·.1.name)).zip values)), t) := by
  rw [bind_eq_supplyAll, LedgerM.bind_ok (supplyAll_of_supplied supplied .empty)]
  rfl

theorem bind_of_stopped {r : Refusal}
    (stopped : Stopped scope (Params.supplies params tokens) r s t) (allowExtra : Bool) :
    bind scope params tokens allowExtra s = (.error r, t) := by
  rw [bind_eq_supplyAll, LedgerM.bind_error (supplyAll_of_stopped stopped .empty)]

theorem eq_ofList_names_iff (accepted : Params.complaint? params = none)
    (supplied : Supplied scope (Params.supplies params tokens) values s t) (b : Arguments) :
    b = Fields.ofList (((Params.supplies params tokens).map (·.1.name)).zip values) ↔
      b.entries.Perm (((Params.supplies params tokens).map (·.1.name)).zip values) := by
  apply Fields.eq_ofList_iff
  rw [List.map_fst_zip (by rw [supplied.length_eq, List.length_map])]
  exact Params.nodup_names accepted tokens

/-- However shapes read and resolvers resolve, every parameter is bound once, implicit ones first,
and by its own share: the implicit ones by none, the explicit ones by the token in their place, and
a variadic one by all from there on. The tokens bind if every parameter accepts its share and there
is room for all of them. Otherwise the first parameter that rejects its share says why they do not,
and leftovers only if none does. -/
theorem bind_by_position {params : List (Param σ)} (accepted : Params.complaint? params = none)
    (scope : Scope σ) (tokens : List Event) (allowExtra : Bool) (s : σ) :
    let explicits := Params.explicits params
    let supplies := (Params.implicits params).map (·, []) ++
      explicits.mapIdx fun i p => (p, p.share (tokens.drop i))
    let room := Params.Room params tokens allowExtra
    (∀ b t, bind scope params tokens allowExtra s = (.ok b, t) ↔
      room ∧ ∃ values, Supplied scope supplies values s t ∧
        b.entries.Perm ((supplies.map (·.1.name)).zip values)) ∧
    (∀ r t, bind scope params tokens allowExtra s = (.error r, t) ↔
      Stopped scope supplies r s t ∨
        ¬ room ∧ (∃ values, Supplied scope supplies values s t) ∧
          r = .extra (" ".intercalate ((tokens.drop explicits.length).map Event.text))) ∧
    (supplies.map Prod.fst).Perm params ∧
    (∃ left, supplies.flatMap Prod.snd ++ left = tokens ∧
      (room → allowExtra = false → left = [])) ∧
    ((∀ p ∈ params, p.shape.Within Eq scope) → ∀ values t, Supplied scope supplies values s t ↔
      t = s ∧ List.Forall₂ (fun x v => x.1.Accepts scope x.2 v s s) supplies values) := by
  -- the places of the parameters tell their shares, as only the last one may be variadic
  intro explicits supplies room
  have hsupplies : supplies = Params.supplies params tokens :=
    (Params.supplies_eq_mapIdx accepted tokens).symm
  clear_value supplies
  subst hsupplies
  have kept := Params.room_iff params tokens allowExtra
  have members : ∀ x ∈ Params.supplies params tokens, x.1 ∈ params := fun _ hx =>
    (Params.map_fst_supplies_perm params tokens).mem_iff.mp (List.mem_map_of_mem hx)
  rw [← and_assoc]
  refine ⟨LedgerM.iff_of_total ?done ?failed ?total, Params.map_fst_supplies_perm params tokens,
    ⟨_, Params.flatMap_supplies_append params tokens, ?all⟩,
    fun quiet values t => supplied_iff_alone fun x hx => quiet x.1 (members x hx)⟩
  case done =>
    rintro b t ⟨hroom, values, supplied, entries⟩
    rw [bind_of_supplied supplied, leftover, if_pos (kept.mp hroom),
      (eq_ofList_names_iff accepted supplied b).mpr entries]
  case failed =>
    rintro r t (stopped | ⟨noRoom, ⟨values, supplied⟩, rfl⟩)
    · exact bind_of_stopped stopped allowExtra
    · rw [bind_of_supplied supplied, leftover, if_neg (mt kept.mpr noRoom),
        Params.leftovers_of_not_room params tokens noRoom]
  case total =>
    rcases supplied_or_stopped scope (Params.supplies params tokens) s with
      ⟨values, t, supplied⟩ | ⟨r, t, stopped⟩
    · by_cases hroom : room
      · exact .inl ⟨_, t, hroom, values, supplied, (eq_ofList_names_iff accepted supplied _).mp rfl⟩
      · exact .inr ⟨_, t, .inr ⟨hroom, ⟨values, supplied⟩, rfl⟩⟩
    · exact .inr ⟨r, t, .inl stopped⟩
  case all =>
    rintro hroom rfl
    simpa using kept.mp hroom

def letter : Shape Unit := .custom "Letter" fun _ e =>
  if e.text.length = 1 then return .string e.text else throw (.expected "Letter" e.text)

def marks : Param Unit := { name := "marks", shape := .listOf letter }

def clerk : Param Unit :=
  { name := "clerk", shape := .string, implicit := some (.constant (.string "me")) }

def remark : Param Unit :=
  { name := "remark", shape := .string, nullable := true, ifMissing := some (.string "none") }

def tags : Param Unit := { name := "tags", shape := .string, variadic := true, mapped := true }

def nobodysEntries : List (String × Value) :=
  [("clerk", .string "me"), ("marks", .list [.string "a", .string "b"]), ("owner", .nothing),
    ("remark", .nothing), ("tags", .list [])]

def nobodysTokens : List Event := [.list [.atom "a", .atom "b"], .atom "nobody"]

theorem bind_by_position_nobody :
    Params.complaint? [marks, owner, clerk, remark, tags] = none ∧
    ∃ b : Arguments, b.entries = nobodysEntries ∧
      bind trueScope [marks, owner, clerk, remark, tags] nobodysTokens false () = (.ok b, ()) := by
  have accepted : Params.complaint? [marks, owner, clerk, remark, tags] = none := by decide
  have letters : marks.shape.read trueScope (.list [.atom "a", .atom "b"]) () =
      (.ok (.list [.string "a", .string "b"]), ()) := by cbv
  have unknown : Shape.address.read trueScope (.atom "nobody") () =
      (.error (.unknownAlias "nobody"), ()) := rfl
  have shares : (Params.implicits [marks, owner, clerk, remark, tags]).map (·, []) ++
      (Params.explicits [marks, owner, clerk, remark, tags]).mapIdx
        (fun i p => (p, p.share (nobodysTokens.drop i))) =
      [(clerk, []), (marks, [.list [.atom "a", .atom "b"]]), (owner, [.atom "nobody"]),
        (remark, []), (tags, [])] := rfl
  have bound := (bind_by_position accepted trueScope nobodysTokens false ()).1
    ⟨nobodysEntries, by decide⟩ ()
  rw [shares] at bound
  refine ⟨accepted, _, rfl, bound.mpr ⟨.inl (by decide), nobodysEntries.map Prod.snd, ?_, .refl _⟩⟩
  exact .cons (.resolved rfl rfl ()) (.cons
    (.read ⟨rfl, .inl (List.cons_ne_nil _ _), rfl⟩ (.whole rfl letters)) (.cons
    (.rescued ⟨rfl, .inl (List.cons_ne_nil _ _), rfl⟩ (.whole rfl unknown) rfl) (.cons
    (.nothing rfl rfl ()) (.cons (.read ⟨rfl, .inr ⟨rfl, rfl⟩, rfl⟩ (.each rfl rfl)) (.nil ())))))

end Arguments

end LedgerScript
