import LedgerScript.Proofs.Runs
import LedgerScript.Proofs.Selection
import LedgerScript.Proofs.StandardOperations

/-!
# What a run does to the ledger

Binding and routing do nothing to the ledger but through the operations that they call. So
whatever reflexive and transitive relation holds across every operation holds across the
evaluations, the selections, the lines and the runs that are made of them, and
also across those that fail.
-/

set_option autoImplicit false

namespace LedgerScript

variable {σ : Type} {R : σ → σ → Prop}

open LedgerM

def Scope.Within (R : σ → σ → Prop) (scope : Scope σ) : Prop :=
  ∀ e, (scope.evaluate e).Within R

def Shape.Within (R : σ → σ → Prop) (scope : Scope σ) (shape : Shape σ) : Prop :=
  ∀ e, (shape.read scope e).Within R

def Operation.ReadsWithin (R : σ → σ → Prop) (scope : Scope σ) (op : Operation σ) : Prop :=
  ∀ p ∈ op.params, p.shape.Within R scope

/-- In a world of which `P` holds, the operation keeps the ledger within the relation, where it
reads its arguments and where it runs, if the evaluations that it makes do. -/
def Operation.Within (P : World → Prop) (R : σ → σ → Prop) (op : Operation σ) : Prop :=
  ∀ scope : Scope σ, P scope.world → scope.Within R →
    op.ReadsWithin R scope ∧ ∀ b, (op.fetch scope b).Within R ∧ (op.execute scope b).Within R

def Family.Within (P : World → Prop) (R : σ → σ → Prop) (f : Family σ) : Prop :=
  ∀ op ∈ f.operations, op.Within P R

def Vocabulary.Within (P : World → Prop) (R : σ → σ → Prop) (v : Vocabulary σ) : Prop :=
  ∀ name f, v.commandFamily? name = some f ∨ v.valueFamily? name = some f → f.Within P R

/-- No reading of an operation's own takes part in the shape. -/
def Shape.BuiltIn : Shape σ → Prop
  | .listOf item => item.BuiltIn
  | .noneOf inner _ => inner.BuiltIn
  | .custom _ _ => False
  | _ => True

section Selection

variable [IsPreorder σ R] {scope : Scope σ}

theorem Shape.within_evaluateAs (h : scope.Within R) (e : Event) (kind : String)
    (accepts : Value → Bool) : (Shape.evaluateAs scope e kind accepts).Within R := by
  refine (h e).bind fun v => ?_
  split
  · exact within_pure v
  · exact within_throw _

theorem Shape.within_of_builtIn (h : scope.Within R) (shape : Shape σ) (builtIn : shape.BuiltIn) :
    shape.Within R scope := by
  intro e
  induction shape generalizing e with
  | number | bool | address =>
    cases e with
    | atom s =>
      rw [Shape.read]
      split
      · exact within_pure _
      · exact within_throw _
    | list es => exact within_evaluateAs h _ _ _
  | string =>
    cases e with
    | atom s => exact within_pure _
    | list es => exact within_evaluateAs h _ _ _
  | event => exact within_pure _
  | value =>
    cases e with
    | atom s => exact within_pure _
    | list es => exact h _
  | listOf item ih =>
    cases e with
    | atom s => exact within_throw _
    | list es =>
      exact (within_mapM (ih builtIn) es).bind fun items => within_pure (Value.list items)
  | oneOf choices =>
    rw [Shape.read]
    split
    · exact within_pure _
    · exact within_throw _
  | noneOf inner reserved ih =>
    rw [Shape.read]
    split
    · exact within_throw _
    · exact ih builtIn e
  | custom => exact builtIn.elim

namespace Param

variable {p : Param σ} (h : p.shape.Within R scope)

include h

theorem within_readEach (es : List Event) : (p.readEach scope es).Within R :=
  (within_mapM h es).bind fun items => within_pure (Value.list items)

theorem within_bindToken (token : Event) : (p.bindToken scope token).Within R := by
  rw [bindToken.eq_def]
  split
  · cases token with
    | list es => exact (within_readEach h es).handle fun e => within_ofExcept (p.refused e)
    | atom s => exact within_throw _
  · exact (h token).handle fun e => within_ofExcept (p.refused e)

theorem within_readRest (rest : List Event) : (p.readRest scope rest).Within R := by
  rw [readRest]
  split
  · exact within_readEach h rest
  · exact h _

theorem within_bindRest (rest : List Event) : (p.bindRest scope rest).Within R := by
  rw [bindRest]
  split
  · exact within_pure _
  · refine (within_readRest h rest).handle fun e => ?_
    split
    · exact within_throw _
    · exact within_ofExcept _

end Param

namespace Arguments

variable {params : List (Param σ)}

theorem within_bindExplicits (h : ∀ p ∈ params, p.shape.Within R scope) (allowExtra : Bool)
    (rest : List Event) (b : Arguments) :
    (bindExplicits scope allowExtra params rest b).Within R := by
  induction params generalizing rest b with
  | nil => exact within_ofExcept _
  | cons p ps ih =>
    obtain ⟨hp, hps⟩ := List.forall_mem_cons.mp h
    rw [bindExplicits.eq_def]
    dsimp only
    split
    · exact (Param.within_bindRest hp rest).bind fun v => ih hps [] _
    · cases rest with
      | nil => exact (within_lift p.bindMissing).bind fun v => ih hps [] _
      | cons token rest => exact (Param.within_bindToken hp token).bind fun v => ih hps rest _

theorem within_bind (h : ∀ p ∈ params, p.shape.Within R scope) (tokens : List Event)
    (allowExtra : Bool) : (bind scope params tokens allowExtra).Within R :=
  (within_lift _).bind fun b =>
    within_bindExplicits (fun p hp => h p (List.mem_of_mem_filter hp)) allowExtra tokens b

end Arguments

theorem Operation.within_bind {op : Operation σ} (h : op.ReadsWithin R scope)
    (tokens : List Event) : (op.bind scope tokens).Within R :=
  (within_lift _).bind fun args => Arguments.within_bind h args false

theorem Family.within_firstOf {bindOp : Operation σ → LedgerM σ Refusal Arguments}
    {ops : List (Operation σ)} (h : ∀ op ∈ ops, (bindOp op).Within R) :
    (firstOf bindOp ops).Within R := by
  induction ops with
  | nil => exact within_throw []
  | cons op rest ih =>
    obtain ⟨hop, hrest⟩ := List.forall_mem_cons.mp h
    rw [firstOf]
    exact (hop.map _).handle fun e => (ih hrest).restate _

theorem Family.within_select {f : Family σ} (h : ∀ op ∈ f.operations, op.ReadsWithin R scope)
    (tokens : List Event) : (f.select scope tokens).Within R :=
  (within_firstOf fun op mem => op.within_bind (h op (List.mem_of_mem_filter mem)) tokens).handle
    fun _ => (within_firstOf fun op mem =>
      Arguments.within_bind (h op (List.mem_of_mem_filter mem)) tokens true).restate _

theorem Family.Within.select {P : World → Prop} {f : Family σ} (hf : f.Within P R)
    (hw : P scope.world) (h : scope.Within R) (tokens : List Event) :
    (f.select scope tokens).Within R :=
  within_select (fun op mem => (hf op mem scope hw h).1) tokens

end Selection

theorem Operation.LeavesLedger.within [IsPreorder σ R] {op : Operation σ} (h : op.LeavesLedger)
    (builtIn : ∀ p ∈ op.params, p.shape.BuiltIn) (P : World → Prop) : op.Within P R := by
  have refl (s t : σ) (hst : s = t) : R s t := hst ▸ refl_of R s
  refine fun scope _ hscope => ⟨fun p hp => p.shape.within_of_builtIn hscope (builtIn p hp), ?_⟩
  exact fun b => ⟨(h scope b).1.mono refl, (h scope b).2.mono refl⟩

theorem Standard.builtIn_core : ∀ op ∈ (coreOperations : List (Operation σ)),
    ∀ p ∈ op.params, p.shape.BuiltIn := by
  simp [coreOperations, Operation.fetcher, numberParam, valueParam, numberPair, valuePair,
    Shape.BuiltIn]

namespace Vocabulary

variable {P : World → Prop} {v : Vocabulary σ} {w : World}

theorem forall_valueRoute {Q : Operation σ → Prop}
    (added : ∀ name f, v.valueFamily? name = some f → ∀ op ∈ f.operations, Q op)
    (core : ∀ op ∈ Standard.coreOperations, Q op) (e : Event) :
    ∀ op ∈ (v.valueRoute e).1.operations, Q op := by
  rw [valueRoute]
  split
  · next f hroute =>
    obtain ⟨name, -, named⟩ := Option.bind_eq_some_iff.mp hroute
    exact added name f named
  · exact core

theorem within_bare : (bare : Vocabulary σ).Within P R := by
  rintro name f (named | named) <;> cases named

theorem Within.addCommands (h : v.Within P R) {f : Family σ} (hf : f.Within P R) :
    (v.addCommands f).Within P R := by
  rintro name g (named | named)
  · rcases named_of_addCommands named with rfl | hv
    · exact hf
    · exact h name g (.inl hv)
  · exact h name g (.inr named)

variable [IsPreorder σ R]

theorem Within.valueRoute (h : v.Within P R) (e : Event) : (v.valueRoute e).1.Within P R :=
  forall_valueRoute (fun name f named => h name f (.inr named))
    (fun op mem => (Standard.leavesLedger_core mem).within (Standard.builtIn_core op mem) P) e

theorem Within.evaluateWithin (h : v.Within P R) (hw : P w) (last : Option Failure) (depth : Nat)
    (e : Event) : (v.evaluateWithin w last depth e).Within R := by
  induction depth generalizing e with
  | zero => exact within_throw _
  | succ depth ih =>
    have hscope : Scope.Within R ⟨w, last, v.evaluateWithin w last depth⟩ := ih
    have hf := h.valueRoute e.unwrapped
    have hselect := hf.select hw hscope (v.valueRoute e.unwrapped).2
    refine (hselect.restate _).bind_of_ok fun ⟨op, b⟩ s t selected => ?_
    have mem := Family.mem_operations_of_select (restate_eq_ok.mp selected)
    exact ((hf op mem _ hw hscope).2 b).1.restate _

theorem Within.scope (h : v.Within P R) (hw : P w) (last : Option Failure) :
    (v.scope w last).Within R :=
  fun e => h.evaluateWithin hw last _ e

end Vocabulary

namespace Runner

variable [IsPreorder σ R] {P : World → Prop} {i : Runner σ} {w : World}

section Lines

variable {scope : Scope σ}

theorem within_senderOf (h : scope.Within R) (who : Event) : (senderOf scope who).Within R := by
  refine ((Shape.within_of_builtIn h .address trivial who).restate _).bind fun v => ?_
  split
  · exact within_pure _
  · exact within_throw _

theorem within_amountOf (h : scope.Within R) (amount : Event) : (amountOf scope amount).Within R :=
  ((Shape.within_of_builtIn h .number trivial amount).restate _).bind fun _ => within_pure _

theorem within_runChange {op : Operation σ} {b : Arguments} (h : (op.execute scope b).Within R) :
    (i.runChange scope op b).Within R := by
  rw [runChange_eq]
  split
  · exact within_throw _
  · exact (h.map _).handle fun f => within_ofExcept _

theorem within_runValueLine (hv : i.vocabulary.Within P R) (hw : P scope.world)
    (h : scope.Within R) (e : Event) (name : String) (rest : List Event)
    (unmatched : Option NoMatch) : (i.runValueLine scope e name rest unmatched).Within R := by
  cases named : i.vocabulary.valueFamily? name with
  | none =>
    rw [runValueLine_unnamed named]
    exact within_throw _
  | some f =>
    have hf := hv name f (.inr named)
    rw [runValueLine_named named]
    refine ((hf.select hw h rest).restate _).bind_of_ok fun ⟨op, b⟩ s t selected => ?_
    have mem := Family.mem_operations_of_select (restate_eq_ok.mp selected)
    exact (((hf op mem scope hw h).2 b).1.map _).handle fun f => within_ofExcept _

theorem within_runPlain (hv : i.vocabulary.Within P R) (hw : P scope.world) (h : scope.Within R)
    (e : Event) (name : String) (rest : List Event) : (i.runPlain scope e name rest).Within R := by
  cases named : i.vocabulary.commandFamily? name with
  | none =>
    rw [runPlain_unnamed named]
    exact within_runValueLine hv hw h e name rest none
  | some f =>
    intro s
    have hf := hv name f (.inl named)
    have hs := hf.select hw h rest s
    rcases selected : f.select scope rest s with ⟨n | ⟨op, b⟩, t⟩
    · rw [selected] at hs
      rw [runPlain_refused named selected]
      exact trans_of R hs (within_runValueLine hv hw h e name rest (some n) t)
    · rw [selected] at hs
      rw [runPlain_selected named selected]
      have mem := Family.mem_operations_of_select selected
      exact trans_of R hs (within_runChange ((hf op mem scope hw h).2 b).2 t)

end Lines

/-- A line does what the operations do that it comes to, in its own world or under its forms. -/
theorem within_route (hv : i.vocabulary.Within P R)
    (options : ∀ w o, P w → P (w.withTxOptions o)) (last : Option Failure) (e : Event) (hw : P w) :
    (i.route w last e).Within R := by
  induction e using Line.form_induction generalizing w with
  | step e ih =>
    rw [route_eq]
    have hscope := hv.scope hw last
    cases line : Line.of e with
    | plain name rest => exact within_runPlain hv hw hscope _ name rest
    | sender who command =>
      refine (within_senderOf hscope who).bind fun a => ?_
      exact (ih command (by rw [line]; rfl) (options w _ hw)).map _
    | value amount command =>
      refine (within_amountOf hscope amount).bind fun a => ?_
      exact (ih command (by rw [line]; rfl) (options w _ hw)).map _
    | incomplete guide => exact within_throw _
    | headless => exact within_throw _

theorem within_runLines (hv : i.vocabulary.Within P R)
    (options : ∀ w o, P w → P (w.withTxOptions o)) {lines : List ScriptLine} {s : Session} {c : σ}
    (reached : ∀ front l back r d, lines = front ++ l :: back →
      i.runLines s front c = (.ok r, d) → P r.world) :
    R c (i.runLines s lines c).2 := by
  induction lines generalizing s c with
  | nil => exact refl_of R c
  | cons l rest ih =>
    have hline := within_route hv options s.lastFailure l.event
      (reached [] l rest _ c rfl rfl) c
    rcases ran : i.process s l.event c with ⟨e | o, d⟩
    · rw [runLines_error ran]
      rwa [← process, ran] at hline
    · rw [runLines_cons ran, map_apply]
      rw [← process, ran] at hline
      refine trans_of R hline (ih fun front k back r d' hsplit hfront => ?_)
      exact reached (l :: front) k back ⟨r.world, l.report o :: r.lines⟩ d' (by rw [hsplit]; rfl)
        (runLines_cons_eq_ok.mpr ⟨o, d, r, ran, hfront, rfl⟩)

end Runner

end LedgerScript
