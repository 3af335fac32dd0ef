import LedgerScript.Proofs.Typing

/-!
# Tokens that parameters take

An implicit parameter takes no tokens, an explicit one a share of those that are left: the first,
or all of them if it is variadic. The shares do not depend on what becomes of the tokens. So
binding is to hand out the shares, to bind each parameter by its own, and then to look at what was
left over.
-/

set_option autoImplicit false

namespace LedgerScript

variable {σ : Type}

namespace Param

/-- The tokens that an explicit parameter takes of those that are left. -/
def share (p : Param σ) (rest : List Event) : List Event := if p.variadic then rest else rest.take 1

def supply (p : Param σ) (scope : Scope σ) (share : List Event) : LedgerM σ Refusal Value :=
  match p.implicit with
  | some resolver => liftM (p.bindImplicit resolver scope.world scope.lastFailure)
  | none =>
    if p.variadic then p.bindRest scope share
    else
      match share with
      | [] => liftM p.bindMissing
      | token :: _ => p.bindToken scope token

theorem supply_of_implicit {p : Param σ} {resolver : Resolver}
    (implicit : p.implicit = some resolver) (scope : Scope σ) (share : List Event) :
    p.supply scope share = liftM (p.bindImplicit resolver scope.world scope.lastFailure) := by
  rw [supply.eq_def, implicit]

theorem supply_of_variadic {p : Param σ} (explicit : p.implicit = none)
    (variadic : p.variadic = true) (scope : Scope σ) (share : List Event) :
    p.supply scope share = p.bindRest scope share := by
  rw [supply.eq_def, explicit]
  exact if_pos variadic

theorem supply_nil {p : Param σ} (explicit : p.implicit = none) (single : p.variadic = false)
    (scope : Scope σ) : p.supply scope [] = liftM p.bindMissing := by
  rw [supply.eq_def, explicit]
  exact if_neg (ne_true_of_eq_false single)

theorem supply_cons {p : Param σ} (explicit : p.implicit = none) (single : p.variadic = false)
    (scope : Scope σ) (token : Event) (more : List Event) :
    p.supply scope (token :: more) = p.bindToken scope token := by
  rw [supply.eq_def, explicit]
  exact if_neg (ne_true_of_eq_false single)

theorem share_of_variadic {p : Param σ} (variadic : p.variadic = true) (rest : List Event) :
    p.share rest = rest := if_pos variadic

theorem share_of_single {p : Param σ} (single : p.variadic = false) (rest : List Event) :
    p.share rest = rest.take 1 := if_neg (ne_true_of_eq_false single)

end Param

namespace Params

def portions : List (Param σ) → List Event → List (Param σ × List Event)
  | [], _ => []
  | p :: ps, rest => (p, p.share rest) :: portions ps (rest.drop (p.share rest).length)

theorem flatMap_portions (ps : List (Param σ)) (rest : List Event) :
    (portions ps rest).flatMap Prod.snd =
      if ps.any Param.variadic then rest else rest.take ps.length := by
  induction ps generalizing rest with
  | nil => rfl
  | cons p ps ih =>
    rw [portions, List.flatMap_cons, ih, List.any_cons]
    cases variadic : p.variadic with
    | true => simp [Param.share_of_variadic variadic]
    | false =>
      rw [Param.share_of_single variadic, Bool.false_or]
      cases rest with
      | nil => simp
      | cons token rest => split <;> simp

theorem portions_take {ps : List (Param σ)} (single : ∀ p ∈ ps, p.variadic = false)
    (rest : List Event) : portions ps (rest.take ps.length) = portions ps rest := by
  induction ps generalizing rest with
  | nil => rfl
  | cons p ps ih =>
    have hps := ih fun q hq => single q (List.mem_cons_of_mem p hq)
    rw [portions, portions, Param.share_of_single (single p List.mem_cons_self),
      Param.share_of_single (single p List.mem_cons_self)]
    cases rest with
    | nil => rfl
    | cons token rest => simp [hps]

def implicits (params : List (Param σ)) : List (Param σ) := params.filter (·.isImplicit)

def explicits (params : List (Param σ)) : List (Param σ) := params.filter (!·.isImplicit)

/-- The parameters in the order in which they are bound, with the tokens that they take. -/
def supplies (params : List (Param σ)) (tokens : List Event) : List (Param σ × List Event) :=
  (implicits params).map (·, []) ++ portions (explicits params) tokens

def leftovers (params : List (Param σ)) (tokens : List Event) : List Event :=
  if (explicits params).any Param.variadic then [] else tokens.drop (explicits params).length

theorem drop_flatMap_portions (params : List (Param σ)) (tokens : List Event) :
    tokens.drop ((portions (explicits params) tokens).flatMap Prod.snd).length =
      leftovers params tokens := by
  rw [flatMap_portions, leftovers]
  split
  · exact List.drop_length
  · rw [List.length_take, List.drop_eq_drop_iff]
    omega

theorem implicit_eq_none {params : List (Param σ)} :
    ∀ p ∈ explicits params, p.implicit = none := by
  intro p hp
  simpa [Param.isImplicit] using (List.mem_filter.mp hp).2

end Params

namespace Arguments

def supplyAll (scope : Scope σ) :
    List (Param σ × List Event) → Arguments → LedgerM σ Refusal Arguments
  | [], b => pure b
  | x :: rest, b => x.1.supply scope x.2 >>= fun v => supplyAll scope rest (b.insert x.1.name v)

theorem supplyAll_append (scope : Scope σ) (xs ys : List (Param σ × List Event)) (b : Arguments) :
    supplyAll scope (xs ++ ys) b = supplyAll scope xs b >>= supplyAll scope ys := by
  induction xs generalizing b with
  | nil => exact (pure_bind b _).symm
  | cons x xs ih =>
    rw [List.cons_append, supplyAll, supplyAll, bind_assoc]
    exact congrArg _ (funext fun v => ih _)

theorem bindImplicits_eq_supplyAll (scope : Scope σ) (params : List (Param σ)) (b : Arguments) :
    (liftM (bindImplicits scope params b) : LedgerM σ Refusal Arguments) =
      supplyAll scope ((Params.implicits params).map (·, [])) b := by
  induction params generalizing b with
  | nil => rfl
  | cons p ps ih =>
    rw [bindImplicits.eq_def]
    cases implicit : p.implicit with
    | none =>
      rw [Params.implicits,
        List.filter_cons_of_neg (by rw [Param.isImplicit, implicit]; exact Bool.false_ne_true)]
      simp only [implicit]
      exact ih b
    | some resolver =>
      rw [Params.implicits, List.filter_cons_of_pos (by rw [Param.isImplicit, implicit]; rfl),
        List.map_cons, supplyAll, Param.supply_of_implicit implicit]
      simp only [implicit]
      rw [LedgerM.lift_bind]
      exact congrArg _ (funext fun v => ih _)

theorem bindExplicits_cons (scope : Scope σ) (allowExtra : Bool) {p : Param σ}
    (explicit : p.implicit = none) (ps : List (Param σ)) (rest : List Event) (b : Arguments) :
    bindExplicits scope allowExtra (p :: ps) rest b =
      p.supply scope (p.share rest) >>= fun v =>
        bindExplicits scope allowExtra ps (rest.drop (p.share rest).length)
          (b.insert p.name v) := by
  rw [bindExplicits.eq_def]
  cases variadic : p.variadic with
  | true =>
    rw [Param.share_of_variadic variadic, Param.supply_of_variadic explicit variadic,
      List.drop_length]
    exact if_pos variadic
  | false =>
    rw [Param.share_of_single variadic]
    cases rest with
    | nil =>
      rw [List.take_nil, Param.supply_nil explicit variadic]
      exact if_neg (ne_true_of_eq_false variadic)
    | cons token rest =>
      rw [List.take_succ_cons, List.take_zero, Param.supply_cons explicit variadic]
      exact if_neg (ne_true_of_eq_false variadic)

theorem bindExplicits_eq_supplyAll (scope : Scope σ) (allowExtra : Bool) {ps : List (Param σ)}
    (explicit : ∀ p ∈ ps, p.implicit = none) (rest : List Event) (b : Arguments) :
    bindExplicits scope allowExtra ps rest b =
      supplyAll scope (Params.portions ps rest) b >>= fun c =>
        .ofExcept (leftover (rest.drop ((Params.portions ps rest).flatMap Prod.snd).length)
          allowExtra c) := by
  -- over the parameters: what one leaves is what the others share
  induction ps generalizing rest b with
  | nil => exact (pure_bind b _).symm
  | cons p ps ih =>
    rw [bindExplicits_cons scope allowExtra (explicit p List.mem_cons_self), Params.portions,
      supplyAll, bind_assoc, List.flatMap_cons, List.length_append, ← List.drop_drop]
    exact congrArg _ (funext fun v => ih (fun q hq => explicit q (List.mem_cons_of_mem p hq)) _ _)

/-- Binding supplies the parameters with their shares and then looks at what they left. -/
theorem bind_eq_supplyAll (scope : Scope σ) (params : List (Param σ)) (tokens : List Event)
    (allowExtra : Bool) :
    bind scope params tokens allowExtra =
      supplyAll scope (Params.supplies params tokens) .empty >>= fun b =>
        .ofExcept (leftover (Params.leftovers params tokens) allowExtra b) := by
  rw [bind, Params.supplies, supplyAll_append, bind_assoc, ← bindImplicits_eq_supplyAll]
  refine congrArg _ (funext fun b => ?_)
  rw [← Params.drop_flatMap_portions]
  exact bindExplicits_eq_supplyAll scope allowExtra Params.implicit_eq_none tokens b

variable (scope : Scope σ) (params : List (Param σ)) (tokens : List Event)

theorem bind_of_lenient :
    bind scope params tokens true = supplyAll scope (Params.supplies params tokens) .empty := by
  rw [bind_eq_supplyAll]
  have kept : (fun b => LedgerM.ofExcept (leftover (Params.leftovers params tokens) true b) :
      Arguments → LedgerM σ Refusal Arguments) = pure := by
    funext b
    rw [leftover, if_pos (Bool.or_true _)]
    rfl
  rw [kept, bind_pure]

theorem bind_of_leftovers_nil {tokens : List Event} (none : Params.leftovers params tokens = []) :
    bind scope params tokens false = bind scope params tokens true := by
  rw [bind_eq_supplyAll, bind_eq_supplyAll, none]
  rfl

theorem bind_of_ok {b : Arguments} {s t : σ}
    (bound : bind scope params tokens false s = (.ok b, t)) :
    bind scope params tokens true s = (.ok b, t) := by
  rw [bind_eq_supplyAll] at bound
  obtain ⟨c, u, supplied, kept⟩ := LedgerM.bind_eq_ok.mp bound
  rw [leftover] at kept
  split at kept
  · cases kept
    rw [bind_of_lenient]
    exact supplied
  · cases kept

theorem bind_lenient_take (single : (Params.explicits params).any Param.variadic = false) :
    bind scope params tokens true =
      bind scope params (tokens.take (Params.explicits params).length) false := by
  have singles : ∀ p ∈ Params.explicits params, p.variadic = false := by
    simpa using single
  have none : Params.leftovers params (tokens.take (Params.explicits params).length) = [] := by
    simp [Params.leftovers]
  rw [bind_of_leftovers_nil scope params none, bind_of_lenient, bind_of_lenient, Params.supplies,
    Params.supplies, Params.portions_take singles]

/-- Leftovers are disregarded as if they were not there: parameters of one token each are bound to
the first tokens, and an explicit variadic one leaves none. So what binds without leftovers binds
to the same where they are allowed, and after a token for each parameter more tokens make no
difference. -/
theorem bind_disregarding_leftovers :
    let explicits := Params.explicits params
    let variadic := ∃ p ∈ explicits, p.variadic = true
    (¬ variadic → bind scope params tokens true =
      bind scope params (tokens.take explicits.length) false) ∧
    (variadic → bind scope params tokens true = bind scope params tokens false) ∧
    (∀ b s t, bind scope params tokens false s = (.ok b, t) →
      bind scope params tokens true s = (.ok b, t)) ∧
    ∀ more, ¬ variadic → explicits.length ≤ tokens.length →
      bind scope params (tokens ++ more) true = bind scope params tokens true := by
  intro explicits variadic
  have bool : explicits.any Param.variadic = true ↔ variadic := List.any_eq_true
  refine ⟨fun single => ?_, fun some => ?_, fun b s t bound => bind_of_ok scope params tokens bound,
    fun more single enough => ?_⟩
  · exact bind_lenient_take scope params tokens (Bool.eq_false_iff.mpr (mt bool.mp single))
  · have none : Params.leftovers params tokens = [] := if_pos (bool.mpr some)
    exact (bind_of_leftovers_nil scope params none).symm
  · have single := Bool.eq_false_iff.mpr (mt bool.mp single)
    rw [bind_lenient_take scope params (tokens ++ more) single,
      bind_lenient_take scope params tokens single, List.take_append_of_le_length enough]

theorem bind_disregarding_leftovers_green :
    bind trueScope [color, owner] [.atom "green", .atom "nobody", .atom "dark"] true =
      bind trueScope [color, owner] [.atom "green", .atom "nobody"] false ∧
    bind trueScope [color, otherWords] [.atom "green", .atom "nobody", .atom "dark"] true =
      bind trueScope [color, otherWords] [.atom "green", .atom "nobody", .atom "dark"] false :=
  ⟨(bind_disregarding_leftovers trueScope [color, owner] _).1 (by decide),
    (bind_disregarding_leftovers trueScope [color, otherWords] _).2.1 (by decide)⟩

def signature : Param Unit :=
  { name := "signature", shape := .string, implicit := some (.constant (.string "me")),
    variadic := true }

/-- That an implicit parameter is variadic does not keep tokens from being left. -/
theorem leftovers_of_variadic_implicit :
    Params.complaint? [signature] = none ∧ signature.variadic = true ∧
    bind trueScope [signature] [.atom "x"] true () =
      (.ok (Fields.ofList [("signature", .string "me")]), ()) ∧
    bind trueScope [signature] [.atom "x"] false () = (.error (.extra "x"), ()) :=
  ⟨rfl, rfl, rfl, rfl⟩

end Arguments

end LedgerScript
