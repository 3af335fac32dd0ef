import LedgerScript.Language.Shape

/-!
# Parameters and arguments

An operation's implicit parameters take their values from the scope. The explicit ones take the
tokens in order, one each, a variadic one all that are left. Tokens that nobody
takes are an error unless leftovers are allowed.
-/

set_option autoImplicit false

namespace LedgerScript

abbrev Resolver := World → Option Failure → Except ArgumentError Value

namespace Resolver

def registered (path : Path) : Resolver := fun w _ =>
  match (w.entry? path).bind RegistryEntry.address? with
  | some a => .ok (.address a)
  | none => .error (.unknownAlias path.dotted)

def sender : Resolver := fun w _ =>
  match w.sender? with
  | some a => .ok (.address a)
  | none => .error (.unknownAlias w.settings.defaultFrom)

def constant (v : Value) : Resolver := fun _ _ => .ok v

end Resolver

structure Param (σ : Type) where
  name : String
  shape : Shape σ
  implicit : Option Resolver := none
  variadic : Bool := false
  /-- Reads each item of a list in parentheses, or each token taken, on its own. -/
  mapped : Bool := false
  nullable : Bool := false
  ifMissing : Option Value := none
  /-- The value in place of one that cannot be read. -/
  ifRefused : Option Value := none
  /-- Makes its operation a fallback. -/
  catchall : Bool := false

namespace Param

variable {σ : Type}

def isImplicit (p : Param σ) : Bool := p.implicit.isSome

/-- How the parameter stands in a usage: optional ones in brackets, none for implicit ones. -/
def usage? (p : Param σ) : Option String :=
  if p.isImplicit then none
  else
    let kind := if p.mapped then "(" ++ p.shape.kind ++ "...)" else p.shape.kind
    let body := p.name ++ ":" ++ kind
    let text := if p.nullable || p.ifMissing.isSome then "[" ++ body ++ "]" else "<" ++ body ++ ">"
    some (if p.variadic then text ++ "..." else text)

def absent? (p : Param σ) : Option Value := if p.nullable then some .nothing else p.ifMissing

def refused (p : Param σ) (e : ArgumentError) : Except Refusal Value :=
  match p.ifRefused with
  | some v => .ok v
  | none => .error (.argument p.name e)

def readEach (p : Param σ) (scope : Scope σ) (es : List Event) : LedgerM σ ArgumentError Value := do
  return .list (← es.mapM (p.shape.read scope))

def bindToken (p : Param σ) (scope : Scope σ) (token : Event) : LedgerM σ Refusal Value :=
  if p.mapped then
    match token with
    | .list es => (p.readEach scope es).handle (fun e => .ofExcept (p.refused e))
    | .atom _ => throw (.notAList p.name token.text)
  else (p.shape.read scope token).handle (fun e => .ofExcept (p.refused e))

def readRest (p : Param σ) (scope : Scope σ) (rest : List Event) : LedgerM σ ArgumentError Value :=
  if p.mapped then p.readEach scope rest else p.shape.read scope (.list rest)

/-- No tokens at all may still be an argument of a variadic parameter; if they are not, the
argument is missing. -/
def bindRest (p : Param σ) (scope : Scope σ) (rest : List Event) : LedgerM σ Refusal Value :=
  let refusal (e : ArgumentError) : LedgerM σ Refusal Value :=
    if rest.isEmpty && p.ifRefused.isNone then throw (.missing p.name) else .ofExcept (p.refused e)
  match rest.isEmpty, p.absent? with
  | true, some v => return v
  | _, _ => (p.readRest scope rest).handle refusal

def bindMissing (p : Param σ) : Except Refusal Value :=
  match p.absent? with
  | some v => .ok v
  | none => .error (.missing p.name)

def bindImplicit (p : Param σ) (resolver : Resolver) (w : World) (lastFailure : Option Failure) :
    Except Refusal Value :=
  match resolver w lastFailure with
  | .ok v => .ok v
  | .error e => p.refused e

end Param

abbrev Arguments := Fields Value

namespace Arguments

def value (b : Arguments) (name : String) : Except Failure Value :=
  match b.get? name with
  | some v => .ok v
  | none => .error (.other ("argument `" ++ name ++ "` is not bound"))

def typed {α : Type} (b : Arguments) (name kind : String) (pick : Value → Option α) :
    Except Failure α := do
  let v ← b.value name
  match pick v with
  | some a => return a
  | none =>
    .error (.other ("argument `" ++ name ++ "` is " ++ v.typeName ++ ", expected " ++ kind))

def number (b : Arguments) (name : String) : Except Failure Number :=
  b.typed name "Number" Value.number?

def address (b : Arguments) (name : String) : Except Failure String :=
  b.typed name "Address" Value.address?

def string (b : Arguments) (name : String) : Except Failure String :=
  b.typed name "String" Value.string?

def bool (b : Arguments) (name : String) : Except Failure Bool :=
  b.typed name "Bool" Value.bool?

def list (b : Arguments) (name : String) : Except Failure (List Value) :=
  b.typed name "List" Value.list?

def optional (b : Arguments) (name : String) : Option Value :=
  (b.get? name).filter (!·.isNothing)

variable {σ : Type}

def bindImplicits (scope : Scope σ) : List (Param σ) → Arguments → Except Refusal Arguments
  | [], b => .ok b
  | p :: ps, b =>
    match p.implicit with
    | none => bindImplicits scope ps b
    | some resolver => do
      let v ← p.bindImplicit resolver scope.world scope.lastFailure
      bindImplicits scope ps (b.insert p.name v)

def leftover (tokens : List Event) (allowExtra : Bool) (b : Arguments) : Except Refusal Arguments :=
  if tokens.isEmpty || allowExtra then .ok b
  else .error (.extra (" ".intercalate (tokens.map Event.text)))

def bindExplicits (scope : Scope σ) (allowExtra : Bool) :
    List (Param σ) → List Event → Arguments → LedgerM σ Refusal Arguments
  | [], rest, b => .ofExcept (leftover rest allowExtra b)
  | p :: ps, rest, b =>
    if p.variadic then do
      let v ← p.bindRest scope rest
      bindExplicits scope allowExtra ps [] (b.insert p.name v)
    else
      match rest with
      | token :: rest => do
        let v ← p.bindToken scope token
        bindExplicits scope allowExtra ps rest (b.insert p.name v)
      | [] => do
        let v ← p.bindMissing
        bindExplicits scope allowExtra ps [] (b.insert p.name v)

def bind (scope : Scope σ) (params : List (Param σ)) (tokens : List Event) (allowExtra : Bool) :
    LedgerM σ Refusal Arguments := do
  let b ← bindImplicits scope params .empty
  bindExplicits scope allowExtra (params.filter (!·.isImplicit)) tokens b

end Arguments

end LedgerScript
