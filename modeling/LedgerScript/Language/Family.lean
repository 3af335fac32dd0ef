import LedgerScript.Language.Operation

/-!
# Families of operations

Operations under one head word, in an order that counts. The first one that takes the input is
selected; the fallbacks come after all the others.
-/

set_option autoImplicit false

namespace LedgerScript

namespace Params

variable {σ : Type}

def repeated? : List String → Option String
  | [] => none
  | name :: rest =>
    match repeated? rest with
    | some other => if name ∈ rest ∧ name < other then some name else some other
    | none => if name ∈ rest then some name else none

def misplacedVariadic? (explicit : List (Param σ)) : Option (Param σ) :=
  match explicit.dropWhile (!·.variadic) with
  | p :: _ :: _ => some p
  | _ => none

/-- What is wrong with a declared list of parameters. -/
def complaint? (params : List (Param σ)) : Option String :=
  match misplacedVariadic? (params.filter (!·.isImplicit)) with
  | some p => some ("variadic argument `" ++ p.name ++ "` must be the last explicit argument")
  | none => (repeated? (params.map Param.name)).map ("argument `" ++ · ++ "` declared twice")

end Params

structure Family (σ : Type) where
  name : String
  operations : List (Operation σ)
  wellFormed : ∀ op ∈ operations, Params.complaint? op.params = none

namespace Family

variable {σ : Type}

def complaint? : List (Operation σ) → Option (Operation σ × String)
  | [] => none
  | op :: rest =>
    match Params.complaint? op.params with
    | some text => some (op, text)
    | none => complaint? rest

theorem wellFormed_of_complaint? (ops : List (Operation σ)) (h : complaint? ops = none) :
    ∀ op ∈ ops, Params.complaint? op.params = none := by
  induction ops with
  | nil => simp
  | cons op rest ih =>
    unfold complaint? at h
    split at h
    · simp at h
    · rename_i hop
      intro x hx
      rcases List.mem_cons.mp hx with rfl | hx
      · exact hop
      · exact ih h x hx

def declare (name : String) (ops : List (Operation σ)) : Except DeclarationError (Family σ) :=
  match h : complaint? ops with
  | some (op, text) => .error ⟨name, op.usage, text⟩
  | none => .ok ⟨name, ops, wellFormed_of_complaint? ops h⟩

def isEmpty (f : Family σ) : Bool := f.operations.isEmpty

def isValueFamily (f : Family σ) : Bool := f.operations.all (·.kind == .fetcher)

def isCommandFamily (f : Family σ) : Bool := f.operations.all (·.kind != .fetcher)

def regular (f : Family σ) : List (Operation σ) := f.operations.filter (!·.isFallback)

def fallbacks (f : Family σ) : List (Operation σ) := f.operations.filter (·.isFallback)

/-- The first operation that binds, or every attempt in order. -/
def firstOf (bindOp : Operation σ → LedgerM σ Refusal Arguments) :
    List (Operation σ) → LedgerM σ (List Attempt) (Operation σ × Arguments)
  | [] => throw []
  | op :: rest =>
    ((fun b => (op, b)) <$> bindOp op).handle
      (fun e => (firstOf bindOp rest).restate (⟨op.usage, e⟩ :: ·))

def guideTo (f : Family σ) (op : Operation σ) : Guide where
  usage :=
    if f.name.isEmpty then op.usage
    else if op.usage.isEmpty then f.name
    else f.name ++ " " ++ op.usage
  doc := op.cleanedDoc

@[simp]
theorem guideTo_doc (f : Family σ) (op : Operation σ) :
    (f.guideTo op).doc = Text.cleanDoc op.doc := rfl

@[simp]
theorem guideTo_usage (f : Family σ) (op : Operation σ) :
    (f.guideTo op).usage = " ".intercalate ([f.name, op.usage].filter (· ≠ "")) := by
  rw [guideTo]
  by_cases named : f.name = "" <;> by_cases shown : op.usage = "" <;>
    simp [named, shown, String.intercalate_cons_cons, String.intercalate_singleton]

def inputText (name : String) (tokens : List Event) : String :=
  " ".intercalate ((if name.isEmpty then [] else [name]) ++ tokens.map Event.text)

def noMatch (f : Family σ) (tokens : List Event) (attempts : List Attempt) : NoMatch :=
  ⟨f.name, inputText f.name tokens, attempts, f.operations.map f.guideTo⟩

/-- Selects the operation that takes the tokens after the head word, with its arguments. -/
def select (f : Family σ) (scope : Scope σ) (tokens : List Event) :
    LedgerM σ NoMatch (Operation σ × Arguments) :=
  (firstOf (·.bind scope tokens) f.regular).handle fun rejected =>
    (firstOf (·.bindFallback scope tokens) f.fallbacks).restate fun more =>
      f.noMatch tokens (rejected ++ more)

end Family

end LedgerScript
