import LedgerScript.Proofs.Action
import LedgerScript.Standard.Vocabulary

/-!
# What the standard operations do

No standard operation calls the ledger. Of the views, an assertion that holds gives back the world
that it sees, and each of the others makes one update of that: an entry of the trace, a registered
name, or new settings.
-/

set_option autoImplicit false

namespace LedgerScript

variable {σ : Type}

namespace Vocabulary

variable {v : Vocabulary σ} {f g : Family σ} {name : String}

theorem named_of_addCommands (named : (v.addCommands f).commandFamily? name = some g) :
    g = f ∨ v.commandFamily? name = some g := by
  rw [commandFamily?, addCommands, Roster.get?_insert] at named
  split at named
  · exact .inl (Option.some.inj named).symm
  · exact .inr named

theorem named_of_foldl {fs : List (Family σ)}
    (named : (fs.foldl addCommands v).commandFamily? name = some g) :
    g ∈ fs ∨ v.commandFamily? name = some g := by
  induction fs generalizing v with
  | nil => exact .inr named
  | cons f rest ih =>
    rcases ih named with hrest | hv
    · exact .inl (List.mem_cons_of_mem f hrest)
    · rcases named_of_addCommands hv with rfl | hnamed
      · exact .inl List.mem_cons_self
      · exact .inr hnamed

end Vocabulary

theorem Standard.mem_commandFamilies {f : Family σ} {name : String}
    (named : (vocabulary : Vocabulary σ).commandFamily? name = some f) : f ∈ commandFamilies := by
  rcases Vocabulary.named_of_foldl named with mem | hbare
  · exact mem
  · cases hbare

/-- The operation leaves the ledger as it is, and what it makes of a world is related to that. -/
def Change.Makes (Q : World → World → Prop) (run : Change σ) : Prop :=
  ∀ scope b s, ∃ result, run scope b s = (result, s) ∧ ∀ v, result = .ok v → Q scope.world v

namespace Change.Makes

variable {Q : World → World → Prop}

theorem lift {x : Scope σ → Arguments → Except Failure World}
    (h : ∀ scope b v, x scope b = .ok v → Q scope.world v) :
    Makes Q (fun scope b => liftM (x scope b) : Change σ) :=
  fun scope b s => ⟨x scope b, LedgerM.lift_apply _ s, h scope b⟩

theorem pure {update : Scope σ → Arguments → World}
    (h : ∀ scope b, Q scope.world (update scope b)) :
    Makes Q (fun scope b => Pure.pure (update scope b) : Change σ) := by
  intro scope b s
  refine ⟨.ok (update scope b), rfl, ?_⟩
  rintro v ⟨⟩
  exact h scope b

theorem fail (f : Arguments → Failure) : Makes Q (fun _ b => throw (f b) : Change σ) :=
  fun _ b _ => ⟨.error (f b), rfl, by simp⟩

theorem bind {α : Type} {x : Scope σ → Arguments → Except Failure α} {f : α → Change σ}
    (h : ∀ a, Makes Q (f a)) :
    Makes Q (fun scope b => liftM (x scope b) >>= fun a => f a scope b : Change σ) := by
  intro scope b s
  cases hx : x scope b with
  | error e => exact ⟨.error e, LedgerM.lift_bind_error hx _ s, by simp⟩
  | ok a =>
    obtain ⟨result, hresult, hQ⟩ := h a scope b s
    exact ⟨result, (LedgerM.lift_bind_ok hx _ s).trans hresult, hQ⟩

theorem apply {run : Change σ} (h : Makes Q run) {scope : Scope σ} {b : Arguments} {s t : σ}
    {v : World} (ran : run scope b s = (.ok v, t)) : Q scope.world v := by
  obtain ⟨result, hresult, hQ⟩ := h scope b s
  rw [hresult] at ran
  cases ran
  exact hQ v rfl

theorem mono {run : Change σ} {S : World → World → Prop} (h : Makes Q run)
    (hS : ∀ w v, Q w v → S w v) : Makes S run := by
  intro scope b s
  obtain ⟨result, hresult, hQ⟩ := h scope b s
  exact ⟨result, hresult, fun v hv => hS _ v (hQ v hv)⟩

end Change.Makes

/-- Whatever the operation comes to, the ledger is as it was. -/
def Operation.LeavesLedger (op : Operation σ) : Prop :=
  ∀ scope b, (op.fetch scope b).Within Eq ∧ (op.execute scope b).Within Eq

namespace Standard

section Changes

theorem ensure_eq_ok {scope : Scope σ} {holds : Bool} {complaint : String} {w : World}
    (h : ensure scope holds complaint = .ok w) : w = scope.world := by
  rw [ensure] at h
  split at h
  · cases h
    rfl
  · cases h

theorem ensureReason_eq_ok {scope : Scope σ} {wanted : Option Value} {word found : String}
    {w : World} (h : ensureReason scope wanted word found = .ok w) : w = scope.world := by
  cases wanted with
  | none =>
    cases h
    rfl
  | some v => exact ensure_eq_ok h

theorem makes_ensure (holds : Bool) (complaint : String) : Change.Makes (fun w v => v = w)
    (fun scope _ => liftM (ensure scope holds complaint) : Change σ) :=
  .lift fun _ _ _ h => ensure_eq_ok h

theorem makes_assertPair (holds : Value → Value → Bool) (between : String) :
    Change.Makes (fun w v => v = w) (assertPair holds between : Change σ) :=
  .bind fun _ => .bind fun _ => makes_ensure _ _

theorem makes_assertIs (wanted : Bool) (complaint : String) :
    Change.Makes (fun w v => v = w) (assertIs wanted complaint : Change σ) :=
  .bind fun _ => makes_ensure _ _

theorem makes_assertSuccess : Change.Makes (fun w v => v = w) (assertSuccess : Change σ) :=
  .bind fun _ => makes_ensure _ _

theorem makes_assertFailure : Change.Makes (fun w v => v = w) (assertFailure : Change σ) := by
  intro scope b s
  rw [assertFailure]
  cases b.optional "error" with
  | none => exact ⟨_, rfl, by simp⟩
  | some e => exact ⟨_, rfl, fun v h => ensureReason_eq_ok h⟩

theorem makes_assertRevert : Change.Makes (fun w v => v = w) (assertRevert : Change σ) := by
  refine .bind fun reverted => ?_
  cases reverted with
  | true => exact .bind fun _ => .lift fun _ _ _ h => ensureReason_eq_ok h
  | false => exact .fail _

theorem makes_assertion {op : Operation σ} (mem : op ∈ assertOperations) :
    Change.Makes (fun w v => v = w) op.execute := by
  simp only [assertOperations, List.mem_cons, List.not_mem_nil, or_false] at mem
  rcases mem with rfl | rfl | rfl | rfl | rfl | rfl | rfl | rfl | rfl
  · exact makes_assertPair _ _
  · exact makes_assertPair _ _
  · exact makes_assertIs _ _
  · exact makes_assertIs _ _
  · exact makes_assertPair _ _
  · exact makes_assertPair _ _
  · exact makes_assertSuccess
  · exact makes_assertFailure
  · exact makes_assertRevert

theorem makes_reading {op : Operation σ} (mem : op ∈ readOperations ∨ op ∈ printOperations) :
    Change.Makes (fun w v => ∃ message, v = w.traced message none) op.execute := by
  simp only [readOperations, printOperations, List.mem_singleton] at mem
  rcases mem with rfl | rfl
  · exact .bind fun _ => .pure fun _ _ => ⟨_, rfl⟩
  · exact .bind fun _ => .pure fun _ _ => ⟨_, rfl⟩

theorem makes_alias {op : Operation σ} (mem : op ∈ aliasOperations) :
    Change.Makes (fun w v => ∃ path entry, v = w.register [path] entry) op.execute := by
  rw [aliasOperations, List.mem_singleton] at mem
  rw [mem]
  exact .bind fun _ => .bind fun _ => .pure fun _ _ => ⟨_, _, rfl⟩

theorem makes_setting {op : Operation σ} (mem : op ∈ settingOperations) :
    Change.Makes (fun w v => ∃ settings, v = w.withSettings settings) op.execute := by
  have changing (f : Settings → Arguments → Except Failure Settings) :
      Change.Makes (fun w v => ∃ settings, v = w.withSettings settings)
        (changeSettings f : Change σ) :=
    .bind fun _ => .pure fun _ _ => ⟨_, rfl⟩
  simp only [settingOperations, List.mem_cons, List.not_mem_nil, or_false] at mem
  rcases mem with rfl | rfl | rfl | rfl
  · exact changing _
  · exact changing _
  · exact changing _
  · exact changing _

end Changes

section Ledger

open LedgerM

theorem leavesLedger_fetcher {verb doc : String} {params : List (Param σ)} {run : Fetch σ}
    (h : ∀ scope b, (run scope b).Within Eq) :
    (Operation.fetcher verb params run doc).LeavesLedger :=
  fun scope b => ⟨h scope b, within_throw _⟩

theorem leavesLedger_unary {verb doc : String} {params : List (Param σ)}
    (f : Number → Except NumericError Number) :
    (Operation.fetcher verb params (unary f) doc : Operation σ).LeavesLedger :=
  leavesLedger_fetcher fun _ b => (within_lift (b.number "n")).bind fun _ => within_lift _

theorem leavesLedger_binary {verb doc : String} {params : List (Param σ)}
    (f : Number → Number → Except NumericError Number) :
    (Operation.fetcher verb params (binary f) doc : Operation σ).LeavesLedger :=
  leavesLedger_fetcher fun _ b => (within_lift (b.number "a")).bind fun _ =>
    (within_lift (b.number "b")).bind fun _ => within_lift _

theorem leavesLedger_comparison {verb doc : String} {params : List (Param σ)}
    (holds : Value → Value → Bool) :
    (Operation.fetcher verb params (comparison holds) doc : Operation σ).LeavesLedger :=
  leavesLedger_fetcher fun _ b => (within_lift (b.value "a")).bind fun _ =>
    (within_lift (b.value "b")).bind fun _ => within_pure _

theorem leavesLedger_passed {verb doc : String} {params : List (Param σ)} :
    (Operation.fetcher verb params passed doc : Operation σ).LeavesLedger :=
  leavesLedger_fetcher fun _ _ => within_lift _

theorem leavesLedger_constant {verb doc : String} {params : List (Param σ)} (v : Value) :
    (Operation.fetcher verb params (constant v) doc : Operation σ).LeavesLedger :=
  leavesLedger_fetcher fun _ _ => within_pure v

theorem leavesLedger_core {op : Operation σ} (mem : op ∈ coreOperations) : op.LeavesLedger := by
  revert op
  simp only [coreOperations, List.forall_mem_cons, List.not_mem_nil, false_implies, implies_true,
    and_true]
  refine ⟨leavesLedger_unary _, leavesLedger_unary _, leavesLedger_binary _, leavesLedger_binary _,
    leavesLedger_binary _, leavesLedger_binary _, leavesLedger_binary _, leavesLedger_binary _,
    leavesLedger_comparison _, leavesLedger_comparison _, leavesLedger_comparison _,
    leavesLedger_passed, leavesLedger_passed, leavesLedger_passed, leavesLedger_constant _,
    leavesLedger_constant _, leavesLedger_constant _, leavesLedger_passed⟩

end Ledger

end Standard

end LedgerScript
