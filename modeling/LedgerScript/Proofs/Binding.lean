import LedgerScript.Proofs.Action
import LedgerScript.Language.Arguments

/-!
# Binding of plain parameters

A plain parameter takes one token and keeps what its shape reads there. Operations with plain
parameters only take as many tokens as they have parameters, from left to right, and are
refused at the first token that cannot be read or is not there.
-/

set_option autoImplicit false

namespace LedgerScript

variable {σ : Type}

namespace Param

/-- The parameter takes exactly one token, as a whole. -/
structure Plain (p : Param σ) : Prop where
  explicit : p.implicit = none
  single : p.variadic = false
  whole : p.mapped = false

theorem Plain.not_variadic {p : Param σ} (plain : p.Plain) : ¬ p.variadic = true := by
  rw [plain.single]
  exact Bool.false_ne_true

theorem Plain.not_mapped {p : Param σ} (plain : p.Plain) : ¬ p.mapped = true := by
  rw [plain.whole]
  exact Bool.false_ne_true

theorem bindToken_of_read {p : Param σ} (plain : p.Plain) {scope : Scope σ} {token : Event}
    {v : Value} {s t : σ} (read : p.shape.read scope token s = (.ok v, t)) :
    p.bindToken scope token s = (.ok v, t) := by
  rw [bindToken.eq_def, if_neg plain.not_mapped]
  exact LedgerM.handle_ok read _

theorem bindToken_of_read_error {p : Param σ} (plain : p.Plain) (strict : p.ifRefused = none)
    {scope : Scope σ} {token : Event} {c : ArgumentError} {s t : σ}
    (read : p.shape.read scope token s = (.error c, t)) :
    p.bindToken scope token s = (.error (.argument p.name c), t) := by
  rw [bindToken.eq_def, if_neg plain.not_mapped, LedgerM.handle_error read, refused, strict]
  rfl

theorem read_of_bindToken {p : Param σ} (plain : p.Plain) (strict : p.ifRefused = none)
    {scope : Scope σ} {token : Event} {v : Value} {s t : σ}
    (bound : p.bindToken scope token s = (.ok v, t)) :
    p.shape.read scope token s = (.ok v, t) := by
  rcases read : p.shape.read scope token s with ⟨c | u, d⟩
  · rw [bindToken_of_read_error plain strict read] at bound
    cases bound
  · rw [bindToken_of_read plain read] at bound
    cases bound
    rfl

end Param

namespace Arguments

section Accessors

variable {b : Arguments} {name : String}

theorem typed_of_get? {α : Type} {v : Value} {a : α} (kind : String) (pick : Value → Option α)
    (h : b.get? name = some v) (picked : pick v = some a) : b.typed name kind pick = .ok a := by
  have hv : b.value name = .ok v := by rw [value, h]
  rw [typed, hv]
  dsimp only [Bind.bind, Except.bind]
  rw [picked]
  rfl

theorem number_of_get? {n : Number} (h : b.get? name = some (.number n)) : b.number name = .ok n :=
  typed_of_get? "Number" Value.number? h rfl

theorem string_of_get? {text : String} (h : b.get? name = some (.string text)) :
    b.string name = .ok text :=
  typed_of_get? "String" Value.string? h rfl

theorem bool_of_get? {truth : Bool} (h : b.get? name = some (.bool truth)) :
    b.bool name = .ok truth :=
  typed_of_get? "Bool" Value.bool? h rfl

theorem address_of_get? {a : String} (h : b.get? name = some (.address a)) :
    b.address name = .ok a :=
  typed_of_get? "Address" Value.address? h rfl

theorem list_of_get? {items : List Value} (h : b.get? name = some (.list items)) :
    b.list name = .ok items :=
  typed_of_get? "List" Value.list? h rfl

end Accessors

theorem get?_of_string {b : Arguments} {name text : String}
    (h : b.string name = .ok text) : b.get? name = some (.string text) := by
  obtain ⟨v, hv, hpick⟩ := exists_of_bind_eq_ok h
  rw [value] at hv
  split at hv
  · next w found =>
    cases hv
    split at hpick
    · next text hstring =>
      cases hpick
      cases v with
      | string s =>
        cases hstring
        exact found
      | _ => cases hstring
    · cases hpick
  · cases hv

variable {scope : Scope σ} {params : List (Param σ)}

theorem bindImplicits_of_plain (plain : ∀ p ∈ params, p.Plain) (b : Arguments) :
    bindImplicits scope params b = .ok b := by
  induction params with
  | nil => rfl
  | cons p ps ih =>
    rw [bindImplicits, (plain p List.mem_cons_self).explicit]
    exact ih (fun q hq => plain q (List.mem_cons_of_mem p hq))

theorem filter_explicit_of_plain (plain : ∀ p ∈ params, p.Plain) :
    params.filter (fun p => !p.isImplicit) = params := by
  rw [List.filter_eq_self]
  intro p hp
  rw [Param.isImplicit, (plain p hp).explicit]
  rfl

theorem bind_of_plain (plain : ∀ p ∈ params, p.Plain) (tokens : List Event) (allowExtra : Bool) :
    bind scope params tokens allowExtra = bindExplicits scope allowExtra params tokens .empty := by
  rw [bind, bindImplicits_of_plain plain, filter_explicit_of_plain plain]
  rfl

/-- Tokens that parameters read one for one, with what they then have by name. -/
inductive Taken (scope : Scope σ) :
    List (Param σ) → List Event → Arguments → Arguments → σ → σ → Prop
  | nil (b : Arguments) (s : σ) : Taken scope [] [] b b s s
  | cons {p : Param σ} {ps : List (Param σ)} {token : Event} {tokens : List Event} {v : Value}
      {b c : Arguments} {s t u : σ} (read : p.shape.read scope token s = (.ok v, t))
      (rest : Taken scope ps tokens (b.insert p.name v) c t u) :
      Taken scope (p :: ps) (token :: tokens) b c s u

theorem bindExplicits_of_taken {tokens extra : List Event} {allowExtra : Bool} {b c : Arguments}
    {s t : σ} (plain : ∀ p ∈ params, p.Plain) (allowed : (extra.isEmpty || allowExtra) = true)
    (taken : Taken scope params tokens b c s t) :
    bindExplicits scope allowExtra params (tokens ++ extra) b s = (.ok c, t) := by
  induction taken with
  | nil b s =>
    rw [List.nil_append, bindExplicits, leftover, if_pos allowed]
    rfl
  | @cons p ps token tokens v b c s t u read rest ih =>
    have hp := plain p List.mem_cons_self
    rw [List.cons_append, bindExplicits, if_neg hp.not_variadic]
    rw [LedgerM.bind_ok (Param.bindToken_of_read hp read)]
    exact ih (fun q hq => plain q (List.mem_cons_of_mem p hq))

theorem bind_of_taken {tokens : List Event} {c : Arguments} {s t : σ}
    (plain : ∀ p ∈ params, p.Plain) (allowExtra : Bool)
    (taken : Taken scope params tokens .empty c s t) :
    bind scope params tokens allowExtra s = (.ok c, t) := by
  rw [bind_of_plain plain, ← List.append_nil tokens]
  exact bindExplicits_of_taken plain rfl taken

theorem bind_of_taken_extra {tokens : List Event} {c : Arguments} {s t : σ}
    (plain : ∀ p ∈ params, p.Plain) (extra : List Event)
    (taken : Taken scope params tokens .empty c s t) :
    bind scope params (tokens ++ extra) true s = (.ok c, t) := by
  rw [bind_of_plain plain]
  exact bindExplicits_of_taken plain (Bool.or_true _) taken

inductive Refused (scope : Scope σ) : List (Param σ) → List Event → σ → σ → Prop
  | missing {p : Param σ} {ps : List (Param σ)} (required : p.absent? = none) (s : σ) :
      Refused scope (p :: ps) [] s s
  | unread {p : Param σ} {ps : List (Param σ)} {token : Event} {tokens : List Event}
      {c : ArgumentError} {s t : σ} (strict : p.ifRefused = none)
      (read : p.shape.read scope token s = (.error c, t)) :
      Refused scope (p :: ps) (token :: tokens) s t
  | later {p : Param σ} {ps : List (Param σ)} {token : Event} {tokens : List Event} {v : Value}
      {s t u : σ} (read : p.shape.read scope token s = (.ok v, t))
      (rest : Refused scope ps tokens t u) : Refused scope (p :: ps) (token :: tokens) s u

theorem bindExplicits_of_refused {tokens : List Event} {s t : σ} (plain : ∀ p ∈ params, p.Plain)
    (allowExtra : Bool) (refused : Refused scope params tokens s t) (b : Arguments) :
    ∃ r, bindExplicits scope allowExtra params tokens b s = (.error r, t) := by
  induction refused generalizing b with
  | @missing p ps required s =>
    have hp := plain p List.mem_cons_self
    have hmissing : (liftM p.bindMissing : LedgerM σ Refusal Value) s =
        (.error (.missing p.name), s) := by
      rw [Param.bindMissing, required]
      rfl
    rw [bindExplicits, if_neg hp.not_variadic]
    exact ⟨_, LedgerM.bind_error hmissing _⟩
  | @unread p ps token tokens c s t strict read =>
    have hp := plain p List.mem_cons_self
    rw [bindExplicits, if_neg hp.not_variadic]
    exact ⟨_, LedgerM.bind_error (Param.bindToken_of_read_error hp strict read) _⟩
  | @later p ps token tokens v s t u read rest ih =>
    have hp := plain p List.mem_cons_self
    rw [bindExplicits, if_neg hp.not_variadic, LedgerM.bind_ok (Param.bindToken_of_read hp read)]
    exact ih (fun q hq => plain q (List.mem_cons_of_mem p hq)) _

theorem bind_of_refused {tokens : List Event} {s t : σ} (plain : ∀ p ∈ params, p.Plain)
    (allowExtra : Bool) (refused : Refused scope params tokens s t) :
    ∃ r, bind scope params tokens allowExtra s = (.error r, t) := by
  rw [bind_of_plain plain]
  exact bindExplicits_of_refused plain allowExtra refused .empty

theorem taken_of_bindExplicits {tokens : List Event} {allowExtra : Bool} {b c : Arguments} {s t : σ}
    (plain : ∀ p ∈ params, p.Plain) (strict : ∀ p ∈ params, p.ifRefused = none)
    (required : ∀ p ∈ params, p.absent? = none)
    (bound : bindExplicits scope allowExtra params tokens b s = (.ok c, t)) :
    ∃ taken extra, tokens = taken ++ extra ∧ Taken scope params taken b c s t := by
  induction params generalizing tokens b s with
  | nil =>
    rw [bindExplicits, leftover] at bound
    split at bound
    · cases bound
      exact ⟨[], tokens, rfl, .nil _ _⟩
    · cases bound
  | cons p ps ih =>
    have hp := plain p List.mem_cons_self
    cases tokens with
    | nil =>
      rw [bindExplicits, if_neg hp.not_variadic, Param.bindMissing,
        required p List.mem_cons_self] at bound
      cases bound
    | cons token tokens =>
      rw [bindExplicits, if_neg hp.not_variadic] at bound
      obtain ⟨v, u, htoken, hrest⟩ := LedgerM.bind_eq_ok.mp bound
      obtain ⟨taken, extra, rfl, rest⟩ := ih (fun q hq => plain q (List.mem_cons_of_mem p hq))
        (fun q hq => strict q (List.mem_cons_of_mem p hq))
        (fun q hq => required q (List.mem_cons_of_mem p hq)) hrest
      have read := Param.read_of_bindToken hp (strict p List.mem_cons_self) htoken
      exact ⟨token :: taken, extra, rfl, .cons read rest⟩

end Arguments

end LedgerScript
