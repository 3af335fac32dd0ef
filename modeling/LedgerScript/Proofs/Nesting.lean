import LedgerScript.Proofs.Dispatch
import LedgerScript.Proofs.Supply
import LedgerScript.Language.Evaluation

/-!
# How deep evaluations nest

Before an operation runs, its arguments are read, and an argument in parentheses is evaluated in
turn. Which events that may concern can be told from the declarations: they are lists among the
tokens, or a list newly made of all the tokens that are left. A new list is shorter than the
expression, since the head word is gone and no core operation makes one; so an evaluation comes to
an end, and the size of its expression bounds how deep it goes.
-/

set_option autoImplicit false

namespace LedgerScript

variable {σ : Type}

namespace Event

theorem sizeAll_eq_sum (es : List Event) : sizeAll es = (es.map size).sum := by
  induction es with
  | nil => rfl
  | cons e es ih => rw [sizeAll, ih, List.map_cons, List.sum_cons]

theorem sizeAll_le_of_sublist {xs ys : List Event} (h : xs.Sublist ys) :
    sizeAll xs ≤ sizeAll ys := by
  rw [sizeAll_eq_sum, sizeAll_eq_sum]
  exact (h.map size).sum_le_sum fun _ _ => Nat.zero_le _

theorem size_le_sizeAll {e : Event} {es : List Event} (mem : e ∈ es) : e.size ≤ sizeAll es := by
  have h := sizeAll_le_of_sublist (List.singleton_sublist.mpr mem)
  simpa [sizeAll] using h

/-- How many evaluations can be nested in one of the event, with itself. A list without items
needs no other. -/
def levels (e : Event) : Nat := if e = .list [] then 1 else e.size + 1

theorem levels_le (e : Event) : e.levels ≤ e.size + 1 := by
  rw [levels]
  split <;> omega

theorem levels_pos (e : Event) : 0 < e.levels := by
  rw [levels]
  split <;> omega

structure ListWithin (e : Event) (bound : Nat) : Prop where
  size_le : e.size ≤ bound
  exists_items : ∃ es, e = .list es

theorem ListWithin.mono {e : Event} {m n : Nat} (h : e.ListWithin m) (le : m ≤ n) :
    e.ListWithin n :=
  ⟨h.size_le.trans le, h.exists_items⟩

theorem ListWithin.levels_lt {a e : Event} (h : a.ListWithin (sizeAll e.tokens)) :
    a.levels < e.levels := by
  obtain ⟨fits, es, rfl⟩ := h
  rw [size] at fits
  cases e with
  | atom word =>
    cases es with
    | nil => simp [levels, size]
    | cons x xs =>
      have := x.size_pos
      simp only [tokens, sizeAll, size] at fits
      omega
  | list items =>
    have hle := (list es).levels_le
    cases items with
    | nil => simp [tokens, sizeAll] at fits
    | cons x xs =>
      rw [show (list (x :: xs)).levels = (list (x :: xs)).size + 1 from if_neg (by simp), size]
      rw [size] at hle
      simp only [tokens] at fits
      omega

theorem levels_unwrapped_le (e : Event) : e.unwrapped.levels ≤ e.levels := by
  have hsize := e.size_unwrapped_le
  rw [levels, levels]
  by_cases h : e = .list []
  · subst h
    rfl
  · rw [if_neg h]
    split <;> omega

end Event

namespace Shape

/-- The events that are evaluated where the shape reads an event. -/
def asks : Shape σ → Event → List Event
  | .number, .list es => [.list es]
  | .string, .list es => [.list es]
  | .bool, .list es => [.list es]
  | .address, .list es => [.list es]
  | .value, .list es => [.list es]
  | .custom _ _, .list es => [.list es]
  | .listOf item, .list es => es.flatMap item.asks
  | .noneOf inner reserved, e => if isReserved reserved e then [] else inner.asks e
  | _, _ => []

variable {w : World} {last : Option Failure} {x y : Event → LedgerM σ ArgumentError Value}

/-- A reading of an operation's own evaluates no event but the list that it reads. -/
def ReadsAlone : Shape σ → Prop
  | .listOf item => item.ReadsAlone
  | .noneOf inner _ => inner.ReadsAlone
  | .custom kind read => ∀ w last x y e, (∀ a ∈ (custom kind read).asks e, x a = y a) →
      read ⟨w, last, x⟩ e = read ⟨w, last, y⟩ e
  | _ => True

theorem BuiltIn.readsAlone {shape : Shape σ} (builtIn : shape.BuiltIn) : shape.ReadsAlone := by
  induction shape with
  | listOf item ih => exact ih builtIn
  | noneOf inner reserved ih => exact ih builtIn
  | custom => exact builtIn.elim
  | _ => trivial

theorem read_congr {shape : Shape σ} (alone : shape.ReadsAlone) {e : Event}
    (same : ∀ a ∈ shape.asks e, x a = y a) :
    shape.read ⟨w, last, x⟩ e = shape.read ⟨w, last, y⟩ e := by
  induction shape generalizing e with
  | number | string | bool | address | value =>
    cases e with
    | atom s => rfl
    | list es =>
      have hlist : x (.list es) = y (.list es) := same _ List.mem_cons_self
      simp only [read, evaluateAs, hlist]
  | event | oneOf => rfl
  | listOf item ih =>
    cases e with
    | atom s => rfl
    | list es =>
      have hitems : es.mapM (item.read ⟨w, last, x⟩) = es.mapM (item.read ⟨w, last, y⟩) :=
        LedgerM.mapM_congr fun e he =>
          ih alone fun a ha => same a (List.mem_flatMap.mpr ⟨e, he, ha⟩)
      rw [read, read, hitems]
  | noneOf inner reserved ih =>
    rw [asks] at same
    rw [read, read]
    split
    · rfl
    · next free =>
      rw [if_neg free] at same
      exact ih alone same
  | custom kind read => exact alone w last x y e same

theorem listWithin_of_asks (shape : Shape σ) {e a : Event} (mem : a ∈ shape.asks e) :
    a.ListWithin e.size := by
  induction shape generalizing e with
  | number | string | bool | address | value | custom =>
    cases e with
    | atom s => cases mem
    | list es =>
      obtain rfl := List.mem_singleton.mp mem
      exact ⟨Nat.le_refl _, es, rfl⟩
  | event | oneOf => cases mem
  | listOf item ih =>
    cases e with
    | atom s => cases mem
    | list es =>
      obtain ⟨b, hb, hab⟩ := List.mem_flatMap.mp mem
      have hitem := Event.size_le_sizeAll hb
      exact (ih hab).mono (by rw [Event.size]; omega)
  | noneOf inner reserved ih =>
    rw [asks] at mem
    split at mem
    · cases mem
    · exact ih mem

end Shape

namespace Param

def gathers (p : Param σ) : Bool := p.variadic && !p.mapped

/-- The events that the shape of the parameter reads of its share. -/
def readings (p : Param σ) (share : List Event) : List Event :=
  if p.isImplicit then []
  else if p.variadic then (if p.mapped then share else [.list share])
  else (share.take 1).flatMap fun token => if p.mapped then token.list?.getD [] else [token]

def asks (p : Param σ) (share : List Event) : List Event := (p.readings share).flatMap p.shape.asks

variable {w : World} {last : Option Failure} {x y : Event → LedgerM σ ArgumentError Value}
  {p : Param σ} {share : List Event}

theorem readEach_congr {es : List Event}
    (same : ∀ e ∈ es, p.shape.read ⟨w, last, x⟩ e = p.shape.read ⟨w, last, y⟩ e) :
    p.readEach ⟨w, last, x⟩ es = p.readEach ⟨w, last, y⟩ es := by
  rw [readEach, readEach, LedgerM.mapM_congr same]

theorem supply_congr (alone : p.shape.ReadsAlone) (same : ∀ a ∈ p.asks share, x a = y a) :
    p.supply ⟨w, last, x⟩ share = p.supply ⟨w, last, y⟩ share := by
  have read : ∀ e ∈ p.readings share,
      p.shape.read ⟨w, last, x⟩ e = p.shape.read ⟨w, last, y⟩ e := fun e he =>
    Shape.read_congr alone fun a ha => same a (List.mem_flatMap.mpr ⟨e, he, ha⟩)
  rw [readings] at read
  cases implicit : p.implicit with
  | some resolver => rw [supply_of_implicit implicit, supply_of_implicit implicit]
  | none =>
    have explicit : ¬ p.isImplicit = true := by simp [isImplicit, implicit]
    rw [if_neg explicit] at read
    cases variadic : p.variadic with
    | true =>
      have rest : p.readRest ⟨w, last, x⟩ share = p.readRest ⟨w, last, y⟩ share := by
        rw [if_pos variadic] at read
        rw [readRest, readRest]
        split
        · next mapped => exact readEach_congr (by simpa [mapped] using read)
        · next whole => exact read _ (by simp [whole])
      rw [supply_of_variadic implicit variadic, supply_of_variadic implicit variadic, bindRest,
        bindRest, rest]
    | false =>
      rw [if_neg (ne_true_of_eq_false variadic)] at read
      cases share with
      | nil => rw [supply_nil implicit variadic, supply_nil implicit variadic]
      | cons token more =>
        rw [supply_cons implicit variadic, supply_cons implicit variadic, bindToken.eq_def,
          bindToken.eq_def]
        split
        · next mapped =>
          cases token with
          | atom word => rfl
          | list es =>
            have each : p.readEach ⟨w, last, x⟩ es = p.readEach ⟨w, last, y⟩ es :=
              readEach_congr (by simpa [mapped, Event.list?] using read)
            simp only [each]
        · next whole => rw [read token (by simp [whole])]

theorem size_le_of_readings {e : Event} (mem : e ∈ p.readings share) :
    e.size ≤ Event.sizeAll share + p.gathers.toNat := by
  rw [readings] at mem
  split at mem
  · cases mem
  · split at mem
    · next variadic =>
      split at mem
      · have := Event.size_le_sizeAll mem
        omega
      · next whole =>
        obtain rfl := List.mem_singleton.mp mem
        simp [gathers, variadic, whole, Event.size]
    · obtain ⟨token, htoken, he⟩ := List.mem_flatMap.mp mem
      have hsize := Event.size_le_sizeAll (List.mem_of_mem_take htoken)
      split at he
      · cases token with
        | atom word => cases he
        | list es =>
          have hitem : e.size ≤ Event.sizeAll es := Event.size_le_sizeAll he
          rw [Event.size] at hsize
          omega
      · obtain rfl := List.mem_singleton.mp he
        omega

theorem listWithin_of_asks {a : Event} (mem : a ∈ p.asks share) :
    a.ListWithin (Event.sizeAll share + p.gathers.toNat) := by
  obtain ⟨e, he, ha⟩ := List.mem_flatMap.mp mem
  exact (p.shape.listWithin_of_asks ha).mono (size_le_of_readings he)

end Param

namespace Params

def asks (params : List (Param σ)) (tokens : List Event) : List Event :=
  (supplies params tokens).flatMap fun x => x.1.asks x.2

theorem sublist_of_mem_portions {ps : List (Param σ)} {rest : List Event} {x : Param σ × List Event}
    (mem : x ∈ portions ps rest) : x.1 ∈ ps ∧ x.2.Sublist rest := by
  induction ps generalizing rest with
  | nil => cases mem
  | cons p ps ih =>
    rcases List.mem_cons.mp mem with rfl | hlater
    · refine ⟨List.mem_cons_self, ?_⟩
      dsimp only [Param.share]
      split
      · exact .refl rest
      · exact List.take_sublist 1 rest
    · obtain ⟨hx, hsub⟩ := ih hlater
      exact ⟨List.mem_cons_of_mem p hx, hsub.trans (List.drop_sublist _ rest)⟩

theorem sublist_of_mem_supplies {params : List (Param σ)} {tokens : List Event}
    {x : Param σ × List Event} (mem : x ∈ supplies params tokens) :
    x.1 ∈ params ∧ x.2.Sublist tokens := by
  rcases List.mem_append.mp mem with himplicit | hexplicit
  · obtain ⟨p, hp, rfl⟩ := List.mem_map.mp himplicit
    exact ⟨List.mem_of_mem_filter hp, List.nil_sublist tokens⟩
  · obtain ⟨hx, hsub⟩ := sublist_of_mem_portions hexplicit
    exact ⟨List.mem_of_mem_filter hx, hsub⟩

theorem listWithin_of_asks {params : List (Param σ)} {k : Nat}
    (slack : ∀ p ∈ params, p.gathers.toNat ≤ k) {tokens : List Event} {a : Event}
    (mem : a ∈ asks params tokens) : a.ListWithin (Event.sizeAll tokens + k) := by
  obtain ⟨x, hx, ha⟩ := List.mem_flatMap.mp mem
  obtain ⟨hparam, hsub⟩ := sublist_of_mem_supplies hx
  exact (Param.listWithin_of_asks ha).mono
    (Nat.add_le_add (Event.sizeAll_le_of_sublist hsub) (slack x.1 hparam))

end Params

section Congruence

variable {w : World} {last : Option Failure} {x y : Event → LedgerM σ ArgumentError Value}

theorem Arguments.supplyAll_congr {xs : List (Param σ × List Event)}
    (alone : ∀ z ∈ xs, z.1.shape.ReadsAlone)
    (same : ∀ a ∈ xs.flatMap fun z => z.1.asks z.2, x a = y a) (b : Arguments) :
    supplyAll ⟨w, last, x⟩ xs b = supplyAll ⟨w, last, y⟩ xs b := by
  induction xs generalizing b with
  | nil => rfl
  | cons z xs ih =>
    obtain ⟨hz, hxs⟩ := List.forall_mem_cons.mp alone
    rw [List.flatMap_cons, List.forall_mem_append] at same
    rw [supplyAll, supplyAll, Param.supply_congr hz same.1]
    exact congrArg _ (funext fun v => ih hxs same.2 _)

theorem Arguments.bind_congr {params : List (Param σ)} {tokens : List Event}
    (alone : ∀ p ∈ params, p.shape.ReadsAlone)
    (same : ∀ a ∈ Params.asks params tokens, x a = y a) (allowExtra : Bool) :
    bind ⟨w, last, x⟩ params tokens allowExtra = bind ⟨w, last, y⟩ params tokens allowExtra := by
  have reads : ∀ z ∈ Params.supplies params tokens, z.1.shape.ReadsAlone :=
    fun z hz => alone z.1 (Params.sublist_of_mem_supplies hz).1
  rw [bind_eq_supplyAll, bind_eq_supplyAll, supplyAll_congr reads same]

namespace Operation

def asks (op : Operation σ) (tokens : List Event) : List Event :=
  if op.isFallback then Params.asks op.params tokens
  else if op.hasVerb tokens then
    Params.asks op.params (tokens.take op.position ++ tokens.drop (op.position + op.verb.length))
  else []

theorem offer_congr {op : Operation σ} (alone : ∀ p ∈ op.params, p.shape.ReadsAlone)
    {tokens : List Event} (same : ∀ a ∈ op.asks tokens, x a = y a) :
    op.offer ⟨w, last, x⟩ tokens = op.offer ⟨w, last, y⟩ tokens := by
  rw [asks] at same
  rw [offer, offer]
  by_cases fallback : op.isFallback = true
  · rw [if_pos fallback] at same
    rw [if_pos fallback, if_pos fallback, bindFallback, bindFallback,
      Arguments.bind_congr alone same]
  · rw [if_neg fallback] at same
    rw [if_neg fallback, if_neg fallback]
    by_cases verb : op.hasVerb tokens = true
    · rw [if_pos verb] at same
      have harguments : op.arguments tokens = .ok
          (tokens.take op.position ++ tokens.drop (op.position + op.verb.length)) := if_pos verb
      rw [bind_of_arguments harguments, bind_of_arguments harguments,
        Arguments.bind_congr alone same]
    · funext s
      rw [Bool.not_eq_true] at verb
      rw [bind_of_not_hasVerb verb, bind_of_not_hasVerb verb]

theorem listWithin_of_asks {op : Operation σ} {k : Nat}
    (slack : ∀ p ∈ op.params, p.gathers.toNat ≤ k) {tokens : List Event} {a : Event}
    (mem : a ∈ op.asks tokens) : a.ListWithin (Event.sizeAll tokens + k) := by
  rw [asks] at mem
  split at mem
  · exact Params.listWithin_of_asks slack mem
  · split at mem
    · have hdrop : (tokens.drop (op.position + op.verb.length)).Sublist
          (tokens.drop op.position) := by
        rw [← List.drop_drop]
        exact List.drop_sublist _ _
      have hsub := (List.Sublist.refl (tokens.take op.position)).append hdrop
      rw [List.take_append_drop] at hsub
      exact (Params.listWithin_of_asks slack mem).mono
        (Nat.add_le_add_right (Event.sizeAll_le_of_sublist hsub) k)
    · cases mem

/-- The operation evaluates no event on its own account, nor do the readings of its own but the
lists that they read. -/
structure FetchesAlone (op : Operation σ) : Prop where
  reads : ∀ p ∈ op.params, p.shape.ReadsAlone
  fetches : ∀ w last x y b, op.fetch ⟨w, last, x⟩ b = op.fetch ⟨w, last, y⟩ b

end Operation

namespace Family

def asks (f : Family σ) (tokens : List Event) : List Event := f.operations.flatMap (·.asks tokens)

theorem select_congr {f : Family σ}
    (alone : ∀ op ∈ f.operations, ∀ p ∈ op.params, p.shape.ReadsAlone) {tokens : List Event}
    (same : ∀ a ∈ f.asks tokens, x a = y a) :
    f.select ⟨w, last, x⟩ tokens = f.select ⟨w, last, y⟩ tokens := by
  rw [select_eq_firstOf, select_eq_firstOf, firstOf_congr]
  intro op mem
  have declared := f.candidates_perm.mem_iff.mp mem
  exact Operation.offer_congr (alone op declared) fun a ha =>
    same a (List.mem_flatMap.mpr ⟨op, declared, ha⟩)

theorem listWithin_of_asks {f : Family σ} {k : Nat}
    (slack : ∀ op ∈ f.operations, ∀ p ∈ op.params, p.gathers.toNat ≤ k) {tokens : List Event}
    {a : Event} (mem : a ∈ f.asks tokens) : a.ListWithin (Event.sizeAll tokens + k) := by
  obtain ⟨op, hop, ha⟩ := List.mem_flatMap.mp mem
  exact Operation.listWithin_of_asks (slack op hop) ha

end Family

end Congruence

namespace Standard

theorem fetchesAlone_core : ∀ op ∈ (coreOperations : List (Operation σ)), op.FetchesAlone := by
  intro op mem
  refine ⟨fun p hp => (builtIn_core op mem p hp).readsAlone, ?_⟩
  revert op
  simp only [coreOperations, List.forall_mem_cons, List.not_mem_nil, false_implies, implies_true,
    and_true]
  and_intros <;> exact fun _ _ _ _ _ => rfl

theorem not_gathers_core : ∀ op ∈ (coreOperations : List (Operation σ)),
    ∀ p ∈ op.params, p.gathers = false := by
  simp [coreOperations, Operation.fetcher, numberParam, valueParam, numberPair, valuePair,
    Param.gathers]

end Standard

namespace Vocabulary

variable {v : Vocabulary σ} {w : World} {last : Option Failure}

def asks (v : Vocabulary σ) (e : Event) : List Event :=
  (v.valueRoute e.unwrapped).1.asks (v.valueRoute e.unwrapped).2

/-- No value of a family that was added evaluates events on its own account. -/
def FetchesAlone (v : Vocabulary σ) : Prop :=
  ∀ name f, v.valueFamily? name = some f → ∀ op ∈ f.operations, op.FetchesAlone

/-- One evaluation, in which the nested ones are those of `x`. -/
def level (v : Vocabulary σ) (w : World) (last : Option Failure)
    (x : Event → LedgerM σ ArgumentError Value) (e : Event) : LedgerM σ ArgumentError Value := do
  let route := v.valueRoute e.unwrapped
  let found ← (route.1.select ⟨w, last, x⟩ route.2).restate (.evaluation e.unwrapped.text ·.message)
  (found.1.fetch ⟨w, last, x⟩ found.2).restate (.evaluation e.unwrapped.text ·.message)

/-- Evaluations that are nested as deep as `depth`, where anything may stand for those below. -/
def evaluateOver (v : Vocabulary σ) (w : World) (last : Option Failure)
    (bottom : Event → LedgerM σ ArgumentError Value) :
    Nat → Event → LedgerM σ ArgumentError Value
  | 0 => bottom
  | depth + 1 => v.level w last (evaluateOver v w last bottom depth)

theorem evaluateWithin_eq_evaluateOver (n : Nat) :
    v.evaluateWithin w last n =
      v.evaluateOver w last (fun e => throw (.evaluation e.text tooDeep)) n := by
  induction n with
  | zero => rfl
  | succ n ih =>
    rw [evaluateOver, ← ih]
    rfl

theorem fetchesAlone_bare : (bare : Vocabulary σ).FetchesAlone := by
  rintro name f named
  cases named

theorem FetchesAlone.addValues (alone : v.FetchesAlone) {f : Family σ}
    (hf : ∀ op ∈ f.operations, op.FetchesAlone) : (v.addValues f).FetchesAlone := by
  intro name g named
  rw [valueFamily?, Vocabulary.addValues, Roster.get?_insert] at named
  split at named
  · cases named
    exact hf
  · exact alone name g named

theorem level_congr (alone : v.FetchesAlone) {e : Event}
    {x y : Event → LedgerM σ ArgumentError Value} (same : ∀ a ∈ v.asks e, x a = y a) :
    v.level w last x e = v.level w last y e := by
  have hops := forall_valueRoute alone Standard.fetchesAlone_core e.unwrapped
  have selects : (v.valueRoute e.unwrapped).1.select ⟨w, last, x⟩ (v.valueRoute e.unwrapped).2 =
      (v.valueRoute e.unwrapped).1.select ⟨w, last, y⟩ (v.valueRoute e.unwrapped).2 :=
    Family.select_congr (fun op mem => (hops op mem).reads) same
  rw [level, level, selects]
  refine LedgerM.bind_congr_of_ok fun found s t selected => ?_
  have mem := Family.mem_operations_of_select (LedgerM.restate_eq_ok.mp selected)
  rw [(hops found.1 mem).fetches w last x y found.2]

theorem listWithin_of_asks {e a : Event} (mem : a ∈ v.asks e) :
    a.ListWithin (Event.sizeAll e.unwrapped.tokens) := by
  cases h : e.unwrapped.head?.bind v.valueFamily? with
  | some f =>
    have hroute : v.valueRoute e.unwrapped = (f, e.unwrapped.tokens.drop 1) := by
      rw [valueRoute, h]
    rw [asks, hroute] at mem
    have hwithin := Family.listWithin_of_asks (k := 1) (fun _ _ p _ => p.gathers.toNat_le) mem
    rw [Event.head?] at h
    cases htokens : e.unwrapped.tokens with
    | nil =>
      rw [htokens] at h
      cases h
    | cons token rest =>
      have htoken := token.size_pos
      rw [htokens, List.drop_one, List.tail_cons] at hwithin
      refine hwithin.mono ?_
      simp only [Event.sizeAll]
      omega
  | none =>
    have hroute : v.valueRoute e.unwrapped = (Standard.coreValues, e.unwrapped.tokens) := by
      rw [valueRoute, h]
      rfl
    rw [asks, hroute] at mem
    exact Family.listWithin_of_asks (k := 0)
      (fun op hop p hp => by rw [Standard.not_gathers_core op hop p hp]; rfl) mem

theorem levels_lt_of_asks {e a : Event} (mem : a ∈ v.asks e) : a.levels < e.levels :=
  (listWithin_of_asks mem).levels_lt.trans_le e.levels_unwrapped_le

theorem length_le_levels {e : Event} {chain : List Event}
    (h : (e :: chain).IsChain fun a b => b ∈ v.asks a) : (e :: chain).length ≤ e.levels := by
  induction chain generalizing e with
  | nil => exact e.levels_pos
  | cons a chain ih =>
    obtain ⟨hasked, hrest⟩ := List.isChain_cons_cons.mp h
    have hlevels := levels_lt_of_asks hasked
    have hlength := ih hrest
    rw [List.length_cons]
    omega

theorem evaluateOver_eq (alone : v.FetchesAlone) {x y : Event → LedgerM σ ArgumentError Value}
    {m n : Nat} {e : Event} (hm : e.levels ≤ m) (hn : e.levels ≤ n) :
    v.evaluateOver w last x m e = v.evaluateOver w last y n e := by
  have hpos := e.levels_pos
  induction m generalizing n e with
  | zero => omega
  | succ m ih =>
    cases n with
    | zero => omega
    | succ n =>
      refine level_congr alone fun a ha => ?_
      have hlevels := levels_lt_of_asks ha
      exact ih (by omega) (by omega) a.levels_pos

theorem evaluate_eq (alone : v.FetchesAlone) (x : Event → LedgerM σ ArgumentError Value) {n : Nat}
    {e : Event} (hn : e.levels ≤ n) : v.evaluateOver w last x n e = v.evaluate w last e := by
  have hlevels := e.levels_le
  rw [evaluate, evaluateWithin_eq_evaluateOver]
  exact evaluateOver_eq alone hn (by omega)

/-- Evaluation comes to an end. What one evaluation comes to depends on the evaluations of certain
events only, and a chain of evaluations, each of them for the one before it, has at most one more
than the size of its first expression. So as many levels are enough, whatever is below them: more of
them make no difference, and evaluation is what it would be without a limit. -/
theorem evaluation_terminates (alone : v.FetchesAlone) (w : World) (last : Option Failure)
    (e : Event) :
    (∀ x y, (∀ a ∈ v.asks e, x a = y a) → v.level w last x e = v.level w last y e) ∧
    (∀ chain, (e :: chain).IsChain (fun a b => b ∈ v.asks a) →
      (e :: chain).length ≤ e.size + 1) ∧
    (∀ n, e.size + 1 ≤ n →
      (∀ bottom, v.evaluateOver w last bottom n e = v.evaluate w last e) ∧
      v.evaluateWithin w last n e = v.evaluate w last e) ∧
    v.evaluate w last e = v.level w last (v.evaluate w last) e := by
  have hlevels := e.levels_le
  refine ⟨fun x y same => level_congr alone same, fun chain h => ?_, fun n hn => ⟨?_, ?_⟩, ?_⟩
  · exact (length_le_levels h).trans hlevels
  · exact fun bottom => evaluate_eq alone bottom (by omega)
  · rw [evaluateWithin_eq_evaluateOver]
    exact evaluate_eq alone _ (by omega)
  · let bottom : Event → LedgerM σ ArgumentError Value := fun a => throw (.evaluation a.text tooDeep)
    have hunfold : v.evaluate w last e = v.level w last
        (v.evaluateOver w last bottom (e.size + 1)) e :=
      (evaluate_eq alone bottom (Nat.le_succ_of_le hlevels)).symm
    rw [hunfold]
    refine level_congr alone fun a ha => ?_
    have hless := levels_lt_of_asks ha
    exact evaluate_eq alone bottom (by omega)

def same : Operation Unit :=
  .fetcher "" [{ Standard.valueParam "value" with variadic := true }] Standard.passed ""

def sameFamily : Family Unit := ⟨"Same", [same], Family.wellFormed_of_complaint? _ rfl⟩

def sameVocabulary : Vocabulary Unit := bare.addValues sameFamily

theorem evaluation_terminates_same :
    sameVocabulary.FetchesAlone ∧
    [Event.atom "Same", .list []].IsChain (fun a b => b ∈ sameVocabulary.asks a) ∧
    ∀ w last n, 2 ≤ n → sameVocabulary.evaluateWithin w last n (.atom "Same") =
      sameVocabulary.evaluate w last (.atom "Same") := by
  have alone : sameVocabulary.FetchesAlone :=
    fetchesAlone_bare.addValues
      (List.forall_mem_singleton.mpr ⟨List.forall_mem_singleton.mpr trivial, fun _ _ _ _ _ => rfl⟩)
  have asked : Event.list [] ∈ sameVocabulary.asks (.atom "Same") := .head _
  refine ⟨alone, by simpa using asked, fun w last n hn => ?_⟩
  exact ((evaluation_terminates alone w last (.atom "Same")).2.2.1 n hn).2

end Vocabulary

end LedgerScript
