import LedgerScript.Proofs.Binding
import LedgerScript.Proofs.Selection

/-!
# Types of arguments

A shape says what values it gives, whatever the value expressions in its tokens come to: a value of
another kind is refused. So a parameter is bound to a value of its type, or else to one of
the values that it has for a missing or a refused token. Where it has none of those, the accessor
of its kind does not fail.
-/

set_option autoImplicit false

namespace LedgerScript

variable {σ : Type}

namespace Value

variable {v : Value}

theorem number?_eq_some_iff {n : Number} : v.number? = some n ↔ v = .number n := by
  cases v <;> simp [number?]

theorem string?_eq_some_iff {text : String} : v.string? = some text ↔ v = .string text := by
  cases v <;> simp [string?]

theorem bool?_eq_some_iff {truth : Bool} : v.bool? = some truth ↔ v = .bool truth := by
  cases v <;> simp [bool?]

theorem address?_eq_some_iff {a : String} : v.address? = some a ↔ v = .address a := by
  cases v <;> simp [address?]

end Value

namespace Shape

/-- The values of a shape. Reserved words are words of the token and not of its value; a reading
of an operation's own is typed by what it can give. -/
def Typed : Shape σ → Value → Prop
  | .number, v => ∃ n, v = .number n
  | .string, v => ∃ text, v = .string text
  | .bool, v => ∃ truth, v = .bool truth
  | .address, v => ∃ a, v = .address a
  | .event, v => ∃ e, v = .event e
  | .value, _ => True
  | .listOf item, v => ∃ items, v = .list items ∧ ∀ x ∈ items, item.Typed x
  | .oneOf choices, v => ∃ word ∈ choices, v = .string word
  | .noneOf inner _, v => inner.Typed v
  | .custom _ read, v => ∃ scope e s t, read scope e s = (.ok v, t)

theorem picked_of_evaluateAs {α : Type} {pick : Value → Option α} {scope : Scope σ} {e : Event}
    {kind : String} {v : Value} {s t : σ}
    (h : evaluateAs scope e kind (fun u => (pick u).isSome) s = (.ok v, t)) :
    ∃ a, pick v = some a := by
  obtain ⟨u, d, -, haccepts⟩ := LedgerM.bind_eq_ok.mp h
  split at haccepts
  · next accepted =>
    cases haccepts
    exact Option.isSome_iff_exists.mp accepted
  · cases haccepts

theorem typed_of_read {scope : Scope σ} (shape : Shape σ) (e : Event) {v : Value} {s t : σ}
    (h : shape.read scope e s = (.ok v, t)) : shape.Typed v := by
  -- over the nesting of shapes; a list in place of a word is evaluated and its value looked at
  induction shape generalizing e v s t with
  | number =>
    cases e with
    | atom word =>
      rw [read] at h
      cases parsed : Number.parse word with
      | ok n =>
        rw [parsed] at h
        cases h
        exact ⟨n, rfl⟩
      | error c =>
        rw [parsed] at h
        cases h
    | list es => exact (picked_of_evaluateAs h).imp fun _ => Value.number?_eq_some_iff.mp
  | string =>
    cases e with
    | atom word =>
      cases h
      exact ⟨word, rfl⟩
    | list es => exact (picked_of_evaluateAs h).imp fun _ => Value.string?_eq_some_iff.mp
  | bool =>
    cases e with
    | atom word =>
      rw [read] at h
      cases truth : boolWord? word with
      | some b =>
        rw [truth] at h
        cases h
        exact ⟨b, rfl⟩
      | none =>
        rw [truth] at h
        cases h
    | list es => exact (picked_of_evaluateAs h).imp fun _ => Value.bool?_eq_some_iff.mp
  | address =>
    cases e with
    | atom word =>
      rw [read] at h
      cases resolved : scope.world.resolve? word with
      | some a =>
        rw [resolved] at h
        cases h
        exact ⟨a, rfl⟩
      | none =>
        rw [resolved] at h
        cases h
    | list es => exact (picked_of_evaluateAs h).imp fun _ => Value.address?_eq_some_iff.mp
  | event =>
    cases h
    exact ⟨e, rfl⟩
  | value => trivial
  | listOf item ih =>
    cases e with
    | atom word => cases h
    | list es =>
      obtain ⟨items, u, hitems, hpure⟩ := LedgerM.bind_eq_ok.mp h
      cases hpure
      exact ⟨items, rfl, LedgerM.forall_of_mapM_eq_ok (fun e _ _ _ => ih e) hitems⟩
  | oneOf choices =>
    rw [read] at h
    cases chosen : chosen? choices e with
    | some word =>
      rw [chosen] at h
      cases h
      cases e with
      | atom text => exact ⟨word, List.mem_of_find?_eq_some chosen, rfl⟩
      | list es => cases chosen
    | none =>
      rw [chosen] at h
      cases h
  | noneOf inner reserved ih =>
    rw [read] at h
    split at h
    · cases h
    · exact ih e h
  | custom kind read => exact ⟨scope, e, s, t, h⟩

end Shape

namespace Param

variable {p : Param σ} {scope : Scope σ} {v : Value} {s t : σ}

def Typed (p : Param σ) (v : Value) : Prop :=
  if p.mapped then ∃ items, v = .list items ∧ ∀ x ∈ items, p.shape.Typed x else p.shape.Typed v

/-- The values that a parameter may be bound to. -/
inductive Admits (p : Param σ) : Value → Prop
  | typed {v : Value} (typed : p.Typed v) : Admits p v
  | nothing (nullable : p.nullable = true) : Admits p .nothing
  | missing {v : Value} (ifMissing : p.ifMissing = some v) : Admits p v
  | refused {v : Value} (ifRefused : p.ifRefused = some v) : Admits p v

theorem admits_of_absent? (h : p.absent? = some v) : p.Admits v := by
  rw [absent?] at h
  split at h
  · next nullable =>
    cases h
    exact .nothing nullable
  · exact .missing h

theorem admits_of_refused {e : ArgumentError} (h : p.refused e = .ok v) : p.Admits v := by
  rw [refused] at h
  split at h
  · next w ifRefused =>
    cases h
    exact .refused ifRefused
  · cases h

theorem typed_of_readEach (mapped : p.mapped = true) {es : List Event}
    (h : p.readEach scope es s = (.ok v, t)) : p.Typed v := by
  obtain ⟨items, u, hitems, hpure⟩ := LedgerM.bind_eq_ok.mp h
  cases hpure
  rw [Typed, if_pos mapped]
  exact ⟨items, rfl, LedgerM.forall_of_mapM_eq_ok (fun e _ _ _ => p.shape.typed_of_read e) hitems⟩

theorem admits_of_handle {x : LedgerM σ ArgumentError Value}
    {refusal : ArgumentError → LedgerM σ Refusal Value}
    (typed : ∀ d, x s = (.ok v, d) → p.Typed v)
    (refused : ∀ e d, refusal e d = (.ok v, t) → p.Admits v)
    (h : x.handle refusal s = (.ok v, t)) : p.Admits v := by
  rcases hx : x s with ⟨e | u, d⟩
  · rw [LedgerM.handle_error hx] at h
    exact refused e d h
  · rw [LedgerM.handle_ok hx] at h
    cases h
    exact .typed (typed t hx)

theorem admits_of_ofExcept {e : ArgumentError}
    (h : (LedgerM.ofExcept (p.refused e) : LedgerM σ Refusal Value) s = (.ok v, t)) :
    p.Admits v := by
  injection h with hresult
  exact admits_of_refused hresult

theorem admits_of_bindToken {token : Event} (h : p.bindToken scope token s = (.ok v, t)) :
    p.Admits v := by
  rw [bindToken.eq_def] at h
  split at h
  · next mapped =>
    cases token with
    | atom word => cases h
    | list es =>
      exact admits_of_handle (fun d => typed_of_readEach mapped)
        (fun e d => admits_of_ofExcept) h
  · next whole =>
    refine admits_of_handle (fun d read => ?_) (fun e d => admits_of_ofExcept) h
    rw [Typed, if_neg whole]
    exact p.shape.typed_of_read token read

theorem typed_of_readRest {rest : List Event} (h : p.readRest scope rest s = (.ok v, t)) :
    p.Typed v := by
  rw [readRest] at h
  split at h
  · next mapped => exact typed_of_readEach mapped h
  · next whole =>
    rw [Typed, if_neg whole]
    exact p.shape.typed_of_read _ h

theorem admits_of_bindRest {rest : List Event} (h : p.bindRest scope rest s = (.ok v, t)) :
    p.Admits v := by
  have read (h : (p.readRest scope rest).handle (fun e =>
      if rest.isEmpty && p.ifRefused.isNone then throw (.missing p.name)
      else .ofExcept (p.refused e)) s = (.ok v, t)) : p.Admits v := by
    refine admits_of_handle (fun d => typed_of_readRest) (fun e d refusal => ?_) h
    split at refusal
    · cases refusal
    · exact admits_of_ofExcept refusal
  -- only an empty rest can be bound without being read
  rw [bindRest.eq_def] at h
  cases empty : rest.isEmpty with
  | false => exact read (by simpa only [empty] using h)
  | true =>
    cases absent : p.absent? with
    | none => exact read (by simpa only [empty, absent] using h)
    | some w =>
      simp only [empty, absent] at h
      cases h
      exact admits_of_absent? absent

theorem admits_of_bindMissing (h : p.bindMissing = .ok v) : p.Admits v := by
  rw [bindMissing] at h
  split at h
  · next w absent =>
    cases h
    exact admits_of_absent? absent
  · cases h

end Param

theorem Params.nodup_of_repeated? {names : List String} (h : repeated? names = none) :
    names.Nodup := by
  induction names with
  | nil => exact .nil
  | cons name rest ih =>
    rw [repeated?] at h
    split at h
    · split at h <;> cases h
    · next hrest =>
      split at h
      · cases h
      · next absent => exact List.nodup_cons.mpr ⟨absent, ih hrest⟩

theorem Params.nodup_of_complaint? {params : List (Param σ)} (h : complaint? params = none) :
    (params.map Param.name).Nodup := by
  rw [complaint?] at h
  split at h
  · cases h
  · exact nodup_of_repeated? (Option.map_eq_none_iff.mp h)

namespace Arguments

variable {scope : Scope σ} {allowExtra : Bool} {params : List (Param σ)} {rest : List Event}
  {b c : Arguments} {s t : σ}

theorem exists_of_bindExplicits_cons {p : Param σ} {ps : List (Param σ)}
    (h : bindExplicits scope allowExtra (p :: ps) rest b s = (.ok c, t)) :
    ∃ v later u, p.Admits v ∧
      bindExplicits scope allowExtra ps later (b.insert p.name v) u = (.ok c, t) := by
  rw [bindExplicits.eq_def] at h
  dsimp only at h
  split at h
  · obtain ⟨v, u, bound, hrest⟩ := LedgerM.bind_eq_ok.mp h
    exact ⟨v, [], u, Param.admits_of_bindRest bound, hrest⟩
  · cases rest with
    | nil =>
      obtain ⟨v, u, bound, hrest⟩ := LedgerM.bind_eq_ok.mp h
      exact ⟨v, [], u, Param.admits_of_bindMissing (LedgerM.lift_eq_ok.mp bound).1, hrest⟩
    | cons token rest =>
      obtain ⟨v, u, bound, hrest⟩ := LedgerM.bind_eq_ok.mp h
      exact ⟨v, rest, u, Param.admits_of_bindToken bound, hrest⟩

theorem get?_of_bindExplicits {name : String} (other : name ∉ params.map Param.name)
    (h : bindExplicits scope allowExtra params rest b s = (.ok c, t)) :
    c.get? name = b.get? name := by
  induction params generalizing rest b s with
  | nil =>
    rw [bindExplicits, leftover] at h
    split at h <;> cases h
    rfl
  | cons p ps ih =>
    rw [List.map_cons, List.mem_cons, not_or] at other
    obtain ⟨v, later, u, -, hrest⟩ := exists_of_bindExplicits_cons h
    rw [ih other.2 hrest, Fields.get?_insert, if_neg (Ne.symm other.1)]

theorem admits_of_bindExplicits (distinct : (params.map Param.name).Nodup)
    (h : bindExplicits scope allowExtra params rest b s = (.ok c, t)) {p : Param σ}
    (mem : p ∈ params) : ∃ v, c.get? p.name = some v ∧ p.Admits v := by
  induction params generalizing rest b s with
  | nil => cases mem
  | cons q qs ih =>
    obtain ⟨hq, hqs⟩ := List.nodup_cons.mp distinct
    obtain ⟨v, later, u, admits, hrest⟩ := exists_of_bindExplicits_cons h
    rcases List.mem_cons.mp mem with rfl | hmem
    · refine ⟨v, ?_, admits⟩
      rw [get?_of_bindExplicits hq hrest, Fields.get?_insert, if_pos rfl]
    · exact ih hqs hrest hmem

theorem admits_of_bind (distinct : (params.map Param.name).Nodup)
    (h : bind scope params rest allowExtra s = (.ok c, t)) {p : Param σ} (mem : p ∈ params)
    (explicit : p.implicit = none) : ∃ v, c.get? p.name = some v ∧ p.Admits v := by
  obtain ⟨b, u, -, hexplicit⟩ := LedgerM.bind_eq_ok.mp h
  have names : ((params.filter (!·.isImplicit)).map Param.name).Nodup :=
    distinct.sublist (List.filter_sublist.map Param.name)
  refine admits_of_bindExplicits names hexplicit ?_
  rw [List.mem_filter, Param.isImplicit, explicit]
  exact ⟨mem, rfl⟩

end Arguments

/-- The accessor of the kind gives a value of the shape. -/
def Shape.Accessible (b : Arguments) (name : String) : Shape σ → Prop
  | .number => ∃ n, b.number name = .ok n
  | .string => ∃ text, b.string name = .ok text
  | .bool => ∃ truth, b.bool name = .ok truth
  | .address => ∃ a, b.address name = .ok a
  | .event => ∃ e, b.value name = .ok (.event e)
  | .value => ∃ v, b.value name = .ok v
  | .listOf item => ∃ items, b.list name = .ok items ∧ ∀ x ∈ items, item.Typed x
  | .oneOf choices => ∃ word ∈ choices, b.string name = .ok word
  | .noneOf inner _ => inner.Accessible b name
  | .custom kind read => ∃ v, b.value name = .ok v ∧ (custom kind read).Typed v

theorem Shape.accessible_of_typed {b : Arguments} {name : String} {v : Value} (shape : Shape σ)
    (bound : b.get? name = some v) (h : shape.Typed v) : shape.Accessible b name := by
  induction shape with
  | number =>
    obtain ⟨n, rfl⟩ := h
    exact ⟨n, Arguments.number_of_get? bound⟩
  | string =>
    obtain ⟨text, rfl⟩ := h
    exact ⟨text, Arguments.string_of_get? bound⟩
  | bool =>
    obtain ⟨truth, rfl⟩ := h
    exact ⟨truth, Arguments.bool_of_get? bound⟩
  | address =>
    obtain ⟨a, rfl⟩ := h
    exact ⟨a, Arguments.address_of_get? bound⟩
  | event =>
    obtain ⟨e, rfl⟩ := h
    exact ⟨e, by rw [Arguments.value, bound]⟩
  | value => exact ⟨v, by rw [Arguments.value, bound]⟩
  | listOf item =>
    obtain ⟨items, rfl, hitems⟩ := h
    exact ⟨items, Arguments.list_of_get? bound, hitems⟩
  | oneOf choices =>
    obtain ⟨word, mem, rfl⟩ := h
    exact ⟨word, mem, Arguments.string_of_get? bound⟩
  | noneOf inner reserved ih => exact ih h
  | custom => exact ⟨v, by rw [Arguments.value, bound], h⟩

namespace Param

def Accessible (b : Arguments) (p : Param σ) : Prop :=
  if p.mapped then ∃ items, b.list p.name = .ok items ∧ ∀ x ∈ items, p.shape.Typed x
  else p.shape.Accessible b p.name

theorem accessible_of_typed {b : Arguments} {p : Param σ} {v : Value}
    (bound : b.get? p.name = some v) (h : p.Typed v) : p.Accessible b := by
  rw [Typed] at h
  rw [Accessible]
  split at h
  · next mapped =>
    obtain ⟨items, rfl, hitems⟩ := h
    rw [if_pos mapped]
    exact ⟨items, Arguments.list_of_get? bound, hitems⟩
  · next whole =>
    rw [if_neg whole]
    exact p.shape.accessible_of_typed bound h

theorem Admits.typed_of_strict {p : Param σ} {v : Value} (h : p.Admits v)
    (required : p.nullable = false) (unmissed : p.ifMissing = none)
    (strict : p.ifRefused = none) : p.Typed v := by
  cases h with
  | typed typed => exact typed
  | nothing nullable =>
    rw [required] at nullable
    cases nullable
  | missing ifMissing =>
    rw [unmissed] at ifMissing
    cases ifMissing
  | refused ifRefused =>
    rw [strict] at ifRefused
    cases ifRefused

end Param

/-- Whatever the tokens are and whatever value expressions come to, every explicit parameter of a
selected operation is bound: to a value of its type, to nothing if it may be, or to one of the
values that it has instead. With none of those, its accessor gives a value of its type. -/
theorem Family.selected_arguments_typed (f : Family σ) {scope : Scope σ} {tokens : List Event}
    {op : Operation σ} {b : Arguments} {s t : σ}
    (selected : f.select scope tokens s = (.ok (op, b), t)) {p : Param σ} (mem : p ∈ op.params)
    (explicit : p.implicit = none) :
    (∃ v, b.get? p.name = some v ∧ p.Admits v) ∧
    (p.nullable = false → p.ifMissing = none → p.ifRefused = none → p.Accessible b) := by
  have wellFormed := f.wellFormed op (mem_operations_of_select selected)
  obtain ⟨args, allowExtra, u, bound⟩ := bound_of_select selected
  obtain ⟨v, found, admits⟩ := Arguments.admits_of_bind (Params.nodup_of_complaint? wellFormed)
    bound mem explicit
  refine ⟨⟨v, found, admits⟩, fun required unmissed strict => ?_⟩
  exact Param.accessible_of_typed found (admits.typed_of_strict required unmissed strict)

def switches : Param Unit := { name := "switches", shape := .listOf (.listOf .bool) }

def color : Param Unit := { name := "color", shape := .oneOf ["Red", "Green"] }

def owner : Param Unit := { name := "owner", shape := .address, ifRefused := some .nothing }

def otherWords : Param Unit :=
  { name := "words", shape := .noneOf .string ["Mix"], variadic := true, mapped := true }

def mixing : Operation Unit :=
  .command "Mix" [switches, color, owner, otherWords] (fun scope _ => return scope.world) "Mixes."

def mixingFamily : Family Unit := ⟨"Paint", [mixing], Family.wellFormed_of_complaint? _ rfl⟩

def trueScope : Scope Unit := ⟨.start .standard, none, fun _ => return .bool true⟩

def mixingTokens : List Event :=
  [.atom "Mix", .list [.list [.atom "yes", .list [.atom "Lamp"]], .list []], .atom "green",
    .atom "nobody", .atom "dark"]

theorem Family.select_mixing :
    ∃ b, mixingFamily.select trueScope mixingTokens () = (.ok (mixing, b), ()) := by
  have lamps : switches.bindToken trueScope
      (.list [.list [.atom "yes", .list [.atom "Lamp"]], .list []]) () =
        (.ok (.list [.list [.bool true, .bool true], .list []]), ()) := by cbv
  have green : color.bindToken trueScope (.atom "green") () = (.ok (.string "Green"), ()) := by
    have chosen : Shape.chosen? ["Red", "Green"] (.atom "green") = some "Green" := by cbv
    refine Param.bindToken_of_read ⟨rfl, rfl, rfl⟩ ?_
    rw [color, Shape.read, chosen]
    rfl
  have nobody : owner.bindToken trueScope (.atom "nobody") () = (.ok .nothing, ()) := rfl
  have dark : otherWords.bindRest trueScope [.atom "dark"] () =
      (.ok (.list [.string "dark"]), ()) := by cbv
  have verb : mixing.hasVerb mixingTokens = true := by cbv
  have length : mixing.verb.length = 1 := by cbv
  have arguments : mixing.arguments mixingTokens = .ok mixingTokens.tail := by
    rw [Operation.arguments, if_pos verb, length]
    rfl
  have implicits : Arguments.bindImplicits trueScope mixing.params .empty = .ok .empty := rfl
  have explicits : mixing.params.filter (fun p => !p.isImplicit) =
      [switches, color, owner, otherWords] := rfl
  refine ⟨?arguments, select_of_regular (firstOf_cons_of_ok ?bound)⟩
  case bound =>
    rw [Operation.bind_of_arguments arguments, Arguments.bind, LedgerM.lift_bind_ok implicits,
      explicits, mixingTokens, List.tail_cons, Arguments.bindExplicits, if_neg (by decide),
      LedgerM.bind_ok lamps, Arguments.bindExplicits, if_neg (by decide), LedgerM.bind_ok green,
      Arguments.bindExplicits, if_neg (by decide), LedgerM.bind_ok nobody,
      Arguments.bindExplicits, if_pos (by decide), LedgerM.bind_ok dark]
    rfl

theorem Family.selected_arguments_typed_mixing :
    ∃ b, mixingFamily.select trueScope mixingTokens () = (.ok (mixing, b), ()) ∧
      (∃ items, b.list "switches" = .ok items ∧
        ∀ x ∈ items, (Shape.listOf .bool : Shape Unit).Typed x) ∧
      (∃ word ∈ ["Red", "Green"], b.string "color" = .ok word) ∧
      (∃ v, b.get? "owner" = some v ∧ owner.Admits v) ∧
      ∃ items, b.list "words" = .ok items ∧ ∀ x ∈ items, (Shape.string : Shape Unit).Typed x := by
  obtain ⟨b, selected⟩ := select_mixing
  have typed {p : Param Unit} (mem : p ∈ mixing.params) (explicit : p.implicit = none) :=
    selected_arguments_typed mixingFamily selected mem explicit
  refine ⟨b, selected, ?_, ?_, ?_, ?_⟩
  · exact (typed (p := switches) (by simp [mixing, Operation.command]) rfl).2 rfl rfl rfl
  · exact (typed (p := color) (by simp [mixing, Operation.command]) rfl).2 rfl rfl rfl
  · exact (typed (p := owner) (by simp [mixing, Operation.command]) rfl).1
  · exact (typed (p := otherWords) (by simp [mixing, Operation.command]) rfl).2 rfl rfl rfl

end LedgerScript
