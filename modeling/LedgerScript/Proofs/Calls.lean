import LedgerScript.Proofs.Action
import LedgerScript.Ledger.Sample

/-!
# Sequences of ledger calls

What a call of the ledger in memory can come to is said once, in `Effect`. From that follow the
accounts of any sequence of calls: the counters count the accepted transactions, a receipt
has the number of its own, every contract has a program, and a call changes at most
one contract, which it does only if it is accepted.
-/

set_option autoImplicit false

namespace LedgerScript

/-- A call of a ledger with what it is given. -/
inductive Request where
  | deploy (kind : String) (args : List Wire) (options : TxOptions)
  | read (handle : Handle) (method : String) (args : List Wire)
  | send (handle : Handle) (method : String) (args : List Wire) (options : TxOptions)

inductive Answer where
  | deployed (handle : Handle)
  | value (value : Wire)
  | sent (invocation : Invocation)

def Request.perform : Request → LedgerM LocalLedger LedgerError Answer
  | .deploy kind args options => Answer.deployed <$> LocalLedger.deploy kind args options
  | .read handle method args => Answer.value <$> LocalLedger.read handle method args
  | .send handle method args options => Answer.sent <$> LocalLedger.send handle method args options

/-- A request to a ledger, with its answer and the ledger after it. -/
structure Step where
  request : Request
  before : LocalLedger
  answer : Except LedgerError Answer
  after : LocalLedger
  performed : request.perform before = (answer, after)

def Answer.accepting : Except LedgerError Answer → Bool
  | .ok (.deployed _) => true
  | .ok (.sent invocation) => invocation.isSuccess
  | _ => false

def Answer.receipt? : Except LedgerError Answer → Option Receipt
  | .ok (.sent invocation) => invocation.receipt
  | _ => none

def Step.accepted (s : Step) : Bool := Answer.accepting s.answer

def Step.receipt? (s : Step) : Option Receipt := Answer.receipt? s.answer

namespace LocalLedger

def step (l : LocalLedger) (r : Request) : Step :=
  ⟨r, l, (r.perform l).1, (r.perform l).2, rfl⟩

def steps (l : LocalLedger) : List Request → List Step
  | [] => []
  | r :: rest => l.step r :: (l.step r).after.steps rest

def afterAll (l : LocalLedger) : List Request → LocalLedger
  | [] => l
  | r :: rest => (l.step r).after.afterAll rest

def callOf (l : LocalLedger) (options : TxOptions) (address : String) : Call :=
  ⟨l.senderOf options, options.value, address⟩

def nextAddress (l : LocalLedger) : String := deriveAddress "contract" l.chain.nonce

def nextReceipt (l : LocalLedger) (handle : Handle) (method : String) (args : List Wire) :
    Receipt :=
  ⟨deriveTxHash handle.address.toLower method (l.chain.nonce + 1), l.chain.blockNumber + 1,
    baseGas + gasPerArgument * args.length⟩

end LocalLedger

/-- What a request comes to on a ledger. -/
inductive Effect (l : LocalLedger) :
    Request → Except LedgerError Answer → LocalLedger → Prop
  | refused (r : Request) (e : LedgerError) : Effect l r (.error e) l
  | answered (handle : Handle) (method : String) (args : List Wire) (value : Wire) :
      Effect l (.read handle method args) (.ok (.value value)) l
  | rejected (handle : Handle) (method : String) (args : List Wire) (options : TxOptions)
      (e : LedgerError) :
      Effect l (.send handle method args options) (.ok (.sent (.rejected method e))) l
  | deployed {kind : String} {args : List Wire} {options : TxOptions} {program : Program}
      {state : Fields Wire} (known : l.programs.get? kind = some program)
      (constructed : program.construct (l.callOf options l.nextAddress) args = .ok state) :
      Effect l (.deploy kind args options) (.ok (.deployed ⟨kind, l.nextAddress⟩))
        { l with chain := l.chain.mine l.nextAddress ⟨kind, state⟩ }
  | mined {handle : Handle} {method : String} {args : List Wire} {options : TxOptions}
      {contract : Contract} {program : Program} {value : Wire} {state : Fields Wire}
      (found : l.chain.contract? handle.address = some contract)
      (known : l.programs.get? contract.kind = some program)
      (ran : program.send (l.callOf options handle.address) method args contract.state =
        (.ok value, state)) :
      Effect l (.send handle method args options)
        (.ok (.sent (.mined method value (l.nextReceipt handle method args))))
        { l with chain := l.chain.mine handle.address.toLower ⟨contract.kind, state⟩ }

namespace LocalLedger

variable {l : LocalLedger}

theorem programOf_cases (l : LocalLedger) (kind : String) :
    (∃ program, l.programs.get? kind = some program ∧ l.programOf kind = .ok program) ∨
      ∃ e, l.programOf kind = .error e := by
  rw [programOf]
  cases l.programs.get? kind with
  | none => exact .inr ⟨_, rfl⟩
  | some program => exact .inl ⟨program, rfl, rfl⟩

theorem contractAt_cases (l : LocalLedger) (address : String) :
    (∃ contract, l.chain.contract? address = some contract ∧
        l.contractAt address = .ok contract) ∨
      ∃ e, l.contractAt address = .error e := by
  rw [contractAt]
  cases l.chain.contract? address with
  | none => exact .inr ⟨_, rfl⟩
  | some contract => exact .inl ⟨contract, rfl, rfl⟩

theorem effect_deploy (l : LocalLedger) (kind : String) (args : List Wire) (options : TxOptions) :
    Effect l (.deploy kind args options) ((Request.deploy kind args options).perform l).1
      ((Request.deploy kind args options).perform l).2 := by
  rw [Request.perform, LedgerM.map_apply, deploy, LedgerM.get_bind]
  rcases l.programOf_cases kind with ⟨program, known, hknown⟩ | ⟨e, he⟩
  · rw [LedgerM.lift_bind_ok hknown]
    dsimp only
    cases hstate : program.construct
        ⟨l.senderOf options, options.value, deriveAddress "contract" l.chain.nonce⟩ args with
    | error e => exact .refused _ e
    | ok state => exact .deployed known hstate
  · rw [LedgerM.lift_bind_error he]
    exact .refused _ e

theorem effect_read (l : LocalLedger) (handle : Handle) (method : String) (args : List Wire) :
    Effect l (.read handle method args) ((Request.read handle method args).perform l).1
      ((Request.read handle method args).perform l).2 := by
  rw [Request.perform, LedgerM.map_apply, read, LedgerM.get_bind]
  rcases l.contractAt_cases handle.address with ⟨contract, -, hfound⟩ | ⟨e, he⟩
  · rw [LedgerM.lift_bind_ok hfound]
    rcases l.programOf_cases contract.kind with ⟨program, -, hknown⟩ | ⟨e, he⟩
    · rw [LedgerM.lift_bind_ok hknown]
      cases hvalue : program.read contract.state method args with
      | error e => exact .refused _ e
      | ok value => exact .answered handle method args value
    · rw [LedgerM.lift_bind_error he]
      exact .refused _ e
  · rw [LedgerM.lift_bind_error he]
    exact .refused _ e

theorem effect_send (l : LocalLedger) (handle : Handle) (method : String) (args : List Wire)
    (options : TxOptions) :
    Effect l (.send handle method args options)
      ((Request.send handle method args options).perform l).1
      ((Request.send handle method args options).perform l).2 := by
  rw [Request.perform, LedgerM.map_apply, send, LedgerM.get_bind]
  rcases l.contractAt_cases handle.address with ⟨contract, found, hfound⟩ | ⟨e, he⟩
  · rw [LedgerM.lift_bind_ok hfound]
    rcases l.programOf_cases contract.kind with ⟨program, known, hknown⟩ | ⟨e, he⟩
    · rw [LedgerM.lift_bind_ok hknown]
      dsimp only [ExceptT.run]
      rcases hran : program.send ⟨l.senderOf options, options.value, handle.address⟩ method args
          contract.state with ⟨e | value, state⟩
      · exact .rejected handle method args options e
      · exact .mined found known hran
    · rw [LedgerM.lift_bind_error he]
      exact .refused _ e
  · rw [LedgerM.lift_bind_error he]
    exact .refused _ e

theorem effect (l : LocalLedger) (r : Request) : Effect l r (r.perform l).1 (r.perform l).2 := by
  cases r with
  | deploy kind args options => exact l.effect_deploy kind args options
  | read handle method args => exact l.effect_read handle method args
  | send handle method args options => exact l.effect_send handle method args options

/-- Every contract has a program that runs it. -/
def Runnable (l : LocalLedger) : Prop :=
  ∀ address contract, l.chain.contracts.get? address = some contract →
    ∃ program, l.programs.get? contract.kind = some program

theorem runnable_of_genesis (programs : Roster String Program) (accounts : List String) :
    Runnable ⟨programs, accounts, .genesis⟩ := by
  intro address contract h
  cases h

theorem Runnable.mine {program : Program} {contract : Contract} (h : l.Runnable) (key : String)
    (known : l.programs.get? contract.kind = some program) :
    Runnable { l with chain := l.chain.mine key contract } := by
  intro address other hother
  rw [Chain.mine, Roster.get?_insert] at hother
  split at hother
  · cases hother
    exact ⟨program, known⟩
  · exact h address other hother

end LocalLedger

/-- The chain `d` has `contract` at `key` and is as `c` at every other address. -/
def Chain.Replaces (c d : Chain) (key : String) (contract : Contract) : Prop :=
  ∀ address, d.contracts.get? address =
    if key = address then some contract else c.contracts.get? address

theorem Chain.replaces_mine (c : Chain) (key : String) (contract : Contract) :
    c.Replaces (c.mine key contract) key contract :=
  fun address => Roster.get?_insert c.contracts key address contract

theorem Chain.Replaces.kind_eq {c d : Chain} {key : String} {contract old : Contract}
    (h : c.Replaces d key contract) (found : c.contracts.get? key = some old)
    (same : contract.kind = old.kind) (address : String) :
    (d.contracts.get? address).map Contract.kind = (c.contracts.get? address).map Contract.kind := by
  rw [h address]
  split
  · next haddress =>
    rw [← haddress, found, Option.map_some, Option.map_some, same]
  · rfl

namespace Effect

variable {l m : LocalLedger} {r : Request} {a : Except LedgerError Answer} {kind method : String}
  {args : List Wire} {options : TxOptions} {handle : Handle}

theorem unchanged (h : Effect l r a m) (ha : Answer.accepting a = false) : m = l := by
  cases h with
  | refused => rfl
  | answered => rfl
  | rejected => rfl
  | deployed known constructed => cases ha
  | mined found known ran => cases ha

theorem of_read (h : Effect l (.read handle method args) a m) : m = l := by
  cases h <;> rfl

theorem programs_eq (h : Effect l r a m) : m.programs = l.programs := by
  cases h <;> rfl

theorem counter_eq (h : Effect l r a m) {counter : Chain → Nat}
    (counts : ∀ c key contract, counter (c.mine key contract) = counter c + 1) :
    counter m.chain = counter l.chain + if Answer.accepting a then 1 else 0 := by
  cases h with
  | refused => rfl
  | answered => rfl
  | rejected => rfl
  | deployed known constructed => exact counts _ _ _
  | mined found known ran => exact counts _ _ _

theorem runnable (h : Effect l r a m) (hl : l.Runnable) : m.Runnable := by
  cases h with
  | refused => exact hl
  | answered => exact hl
  | rejected => exact hl
  | deployed known constructed => exact hl.mine _ known
  | mined found known ran => exact hl.mine _ known

theorem of_deploy (h : Effect l (.deploy kind args options) a m)
    (accepted : Answer.accepting a = true) :
    ∃ program state, l.programs.get? kind = some program ∧
      program.construct (l.callOf options l.nextAddress) args = .ok state ∧
      a = .ok (.deployed ⟨kind, l.nextAddress⟩) ∧
      l.chain.Replaces m.chain l.nextAddress ⟨kind, state⟩ := by
  cases h with
  | refused => cases accepted
  | deployed known constructed =>
    exact ⟨_, _, known, constructed, rfl, l.chain.replaces_mine _ _⟩

theorem of_send (h : Effect l (.send handle method args options) a m)
    (accepted : Answer.accepting a = true) :
    ∃ contract program value state, l.chain.contract? handle.address = some contract ∧
      l.programs.get? contract.kind = some program ∧
      program.send (l.callOf options handle.address) method args contract.state =
        (.ok value, state) ∧
      a = .ok (.sent (.mined method value (l.nextReceipt handle method args))) ∧
      l.chain.Replaces m.chain handle.address.toLower ⟨contract.kind, state⟩ := by
  cases h with
  | refused => cases accepted
  | rejected => cases accepted
  | mined found known ran => exact ⟨_, _, _, _, found, known, ran, rfl, l.chain.replaces_mine _ _⟩

theorem of_receipt {receipt : Receipt} (h : Effect l r a m)
    (hr : Answer.receipt? a = some receipt) :
    Answer.accepting a = true ∧ ∃ handle method args options,
      r = .send handle method args options ∧ receipt = l.nextReceipt handle method args := by
  cases h with
  | refused => cases hr
  | answered => cases hr
  | rejected => cases hr
  | deployed known constructed => cases hr
  | mined found known ran =>
    cases hr
    exact ⟨rfl, _, _, _, _, rfl, rfl⟩

end Effect

theorem Step.effect (s : Step) : Effect s.before s.request s.answer s.after := by
  have h := s.before.effect s.request
  rwa [s.performed] at h

theorem Step.counter_after {counter : Chain → Nat}
    (counts : ∀ c key contract, counter (c.mine key contract) = counter c + 1) (s : Step) :
    counter s.after.chain = counter s.before.chain + if s.accepted then 1 else 0 :=
  s.effect.counter_eq counts

namespace LocalLedger

variable {l : LocalLedger} {requests : List Request}

theorem exists_of_mem_steps {s : Step} (h : s ∈ l.steps requests) :
    ∃ earlier r later, requests = earlier ++ r :: later ∧ s = (l.afterAll earlier).step r := by
  induction requests generalizing l with
  | nil => cases h
  | cons r rest ih =>
    rcases List.mem_cons.mp h with rfl | hrest
    · exact ⟨[], r, rest, rfl, rfl⟩
    · obtain ⟨earlier, t, later, rfl, rfl⟩ := ih hrest
      exact ⟨r :: earlier, t, later, rfl, rfl⟩

theorem programs_afterAll (l : LocalLedger) (requests : List Request) :
    (l.afterAll requests).programs = l.programs := by
  induction requests generalizing l with
  | nil => rfl
  | cons r rest ih =>
    rw [afterAll, ih, (l.step r).effect.programs_eq]
    rfl

theorem programs_of_mem_steps {s : Step} (h : s ∈ l.steps requests) :
    s.before.programs = l.programs := by
  obtain ⟨earlier, r, later, -, rfl⟩ := exists_of_mem_steps h
  exact l.programs_afterAll earlier

theorem runnable_afterAll (h : l.Runnable) (requests : List Request) :
    (l.afterAll requests).Runnable := by
  induction requests generalizing l with
  | nil => exact h
  | cons r rest ih => exact ih ((l.step r).effect.runnable h)

section Counters

variable {counter : Chain → Nat}
  (counts : ∀ c key contract, counter (c.mine key contract) = counter c + 1)

include counts

/-- At a step of a run the counter has gone up once for each transaction accepted before. -/
theorem counter_before {earlier later : List Step} {s : Step}
    (h : l.steps requests = earlier ++ s :: later) :
    counter s.before.chain = counter l.chain + earlier.countP Step.accepted := by
  induction earlier generalizing l requests with
  | nil =>
    cases requests with
    | nil => cases h
    | cons r rest =>
      cases h
      rfl
  | cons t earlier ih =>
    cases requests with
    | nil => cases h
    | cons r rest =>
      obtain ⟨rfl, hrest⟩ := List.cons.inj h
      rw [ih hrest, (l.step r).counter_after counts, List.countP_cons, Nat.add_assoc,
        Nat.add_comm (earlier.countP Step.accepted)]
      rfl

theorem counter_afterAll (l : LocalLedger) (requests : List Request) :
    counter (l.afterAll requests).chain =
      counter l.chain + (l.steps requests).countP Step.accepted := by
  induction requests generalizing l with
  | nil => rfl
  | cons r rest ih =>
    rw [afterAll, steps, ih, (l.step r).counter_after counts, List.countP_cons, Nat.add_assoc,
      Nat.add_comm ((steps _ rest).countP Step.accepted)]
    rfl

end Counters

/-- The accounts of any calls from the start. Nonce and block number are the number of accepted
transactions, and a receipt has the rank of its own among them. Every contract has a program.
What is not accepted changes nothing. A deployment changes the entry at the address that it
returns, and a mined call the state of the contract that it addresses, to what the program made
of it; no other entry changes, and no kind. -/
theorem transactions_accounted (programs : Roster String Program) (accounts : List String)
    (requests : List Request) :
    let genesis : LocalLedger := ⟨programs, accounts, .genesis⟩
    let steps := genesis.steps requests
    let last := genesis.afterAll requests
    last.chain.nonce = steps.countP Step.accepted ∧
    last.chain.blockNumber = steps.countP Step.accepted ∧
    (∀ earlier s later receipt, steps = earlier ++ s :: later → s.receipt? = some receipt →
      s.accepted = true ∧ receipt.blockNumber = earlier.countP Step.accepted + 1) ∧
    (∀ address contract, last.chain.contracts.get? address = some contract →
      ∃ program, programs.get? contract.kind = some program) ∧
    (∀ s ∈ steps, ∀ handle method args, s.request = .read handle method args →
      s.after.chain = s.before.chain) ∧
    (∀ s ∈ steps, s.accepted = false → s.after.chain = s.before.chain) ∧
    (∀ s ∈ steps, ∀ kind args options, s.request = .deploy kind args options →
      s.accepted = true →
        ∃ address program state, s.answer = .ok (.deployed ⟨kind, address⟩) ∧
          programs.get? kind = some program ∧
          program.construct (s.before.callOf options address) args = .ok state ∧
          s.before.chain.Replaces s.after.chain address ⟨kind, state⟩) ∧
    (∀ s ∈ steps, ∀ handle method args options, s.request = .send handle method args options →
      s.accepted = true →
        ∃ contract program value state receipt,
          s.before.chain.contracts.get? handle.address.toLower = some contract ∧
          programs.get? contract.kind = some program ∧
          program.send (s.before.callOf options handle.address) method args contract.state =
            (.ok value, state) ∧
          s.answer = .ok (.sent (.mined method value receipt)) ∧
          s.before.chain.Replaces s.after.chain handle.address.toLower ⟨contract.kind, state⟩ ∧
          ∀ address, (s.after.chain.contracts.get? address).map Contract.kind =
            (s.before.chain.contracts.get? address).map Contract.kind) := by
  intro genesis steps last
  have hprograms {s : Step} (hs : s ∈ steps) : s.before.programs = programs :=
    programs_of_mem_steps hs
  have hnonce : last.chain.nonce = steps.countP Step.accepted :=
    (counter_afterAll (fun _ _ _ => rfl) genesis requests).trans (Nat.zero_add _)
  have hblock : last.chain.blockNumber = steps.countP Step.accepted :=
    (counter_afterAll (fun _ _ _ => rfl) genesis requests).trans (Nat.zero_add _)
  refine ⟨hnonce, hblock, ?_, ?_, ?_, ?_, ?_, ?_⟩
  · intro earlier s later receipt hsteps hreceipt
    obtain ⟨haccepted, handle, method, args, options, -, rfl⟩ := s.effect.of_receipt hreceipt
    have hbefore : s.before.chain.blockNumber = 0 + earlier.countP Step.accepted :=
      counter_before (fun _ _ _ => rfl) hsteps
    rw [Nat.zero_add] at hbefore
    exact ⟨haccepted, congrArg (· + 1) hbefore⟩
  · intro address contract h
    have hlast := runnable_afterAll (runnable_of_genesis programs accounts) requests
    obtain ⟨program, known⟩ := hlast address contract h
    rw [programs_afterAll] at known
    exact ⟨program, known⟩
  · intro s hs handle method args request
    have heffect := s.effect
    rw [request] at heffect
    rw [heffect.of_read]
  · intro s hs h
    rw [s.effect.unchanged h]
  · intro s hs kind args options request haccepted
    have heffect := s.effect
    rw [request] at heffect
    obtain ⟨program, state, known, constructed, answer, hreplaces⟩ := heffect.of_deploy haccepted
    rw [hprograms hs] at known
    exact ⟨_, program, state, answer, known, constructed, hreplaces⟩
  · intro s hs handle method args options request haccepted
    have heffect := s.effect
    rw [request] at heffect
    obtain ⟨contract, program, value, state, found, known, ran, answer, hreplaces⟩ :=
      heffect.of_send haccepted
    rw [hprograms hs] at known
    exact ⟨contract, program, value, state, _, found, known, ran, answer, hreplaces,
      hreplaces.kind_eq found rfl⟩

def cells : Roster String Program := Roster.empty.insert "Cell" (Sample.ownedCell "Cell")

def firstCell : Handle := ⟨"Cell", (deriveAddress "contract" 0).toUpper⟩

def cellRequests : List Request := [
  .deploy "Cell" [.string "5"] .none, .send firstCell "fail" [] .none,
  .send firstCell "setValue" [.string "7"] .none]

theorem transactions_accounted_cells :
    let genesis : LocalLedger := ⟨cells, ["0x01"], .genesis⟩
    ∃ deployed rejected mined receipt, genesis.steps cellRequests = [deployed, rejected, mined] ∧
      deployed.accepted = true ∧ rejected.accepted = false ∧ mined.receipt? = some receipt ∧
      rejected.after.chain = rejected.before.chain ∧ mined.accepted = true ∧
      receipt.blockNumber = 2 := by
  intro genesis
  let deployed := genesis.step (.deploy "Cell" [.string "5"] .none)
  let rejected := deployed.after.step (.send firstCell "fail" [] .none)
  let mined := rejected.after.step (.send firstCell "setValue" [.string "7"] .none)
  have hanswers : deployed.accepted = true ∧ rejected.accepted = false ∧
      mined.receipt?.isSome = true := by decide +kernel
  obtain ⟨hdeployed, hrejected, hmined⟩ := hanswers
  obtain ⟨receipt, hreceipt⟩ := Option.isSome_iff_exists.mp hmined
  have hsteps : genesis.steps cellRequests = [deployed, rejected, mined] := rfl
  have h := transactions_accounted cells ["0x01"] cellRequests
  obtain ⟨-, -, hreceipts, -, -, hunchanged, -⟩ := h
  have hrank := hreceipts [deployed, rejected] mined [] receipt hsteps hreceipt
  rw [List.countP_cons_of_pos hdeployed, List.countP_cons_of_neg (by simp [hrejected])] at hrank
  exact ⟨deployed, rejected, mined, receipt, hsteps, hdeployed, hrejected, hreceipt,
    hunchanged rejected (by rw [hsteps]; simp) hrejected, hrank⟩

end LocalLedger

end LedgerScript
