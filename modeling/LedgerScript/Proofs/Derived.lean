import LedgerScript.Proofs.Calls

/-!
# Derived addresses and hashes

Addresses and transaction hashes are the digits of digests of texts that end in the number of a
transaction, and no two transactions have one number. So they repeat only where two of
the texts have one digest. As long as that does not happen, a deployment takes the place of no
contract, and every transaction has a hash of its own.
-/

set_option autoImplicit false

namespace LedgerScript

namespace Digest

theorem hexDigit_inj {m n : Nat} (h : hexDigit m = hexDigit n) : m % 16 = n % 16 := by
  have hdigits : ∀ a b : Fin 16, Nat.digitChar a = Nat.digitChar b → a = b := by decide
  have hm : m % 16 < 16 := Nat.mod_lt _ (by decide)
  have hn : n % 16 < 16 := Nat.mod_lt _ (by decide)
  exact congrArg Fin.val (hdigits ⟨m % 16, hm⟩ ⟨n % 16, hn⟩ h)

theorem toList_hexOf (bytes : List UInt8) :
    (hexOf bytes).toList = bytes.flatMap fun b => [hexDigit (b.toNat / 16), hexDigit b.toNat] :=
  String.toList_ofList

theorem hexOf_injective : Function.Injective hexOf := by
  intro bs cs h
  rw [← String.toList_inj, toList_hexOf, toList_hexOf] at h
  induction bs generalizing cs with
  | nil =>
    cases cs with
    | nil => rfl
    | cons c cs => cases h
  | cons b bs ih =>
    cases cs with
    | nil => cases h
    | cons c cs =>
      simp only [List.flatMap_cons, List.cons_append, List.nil_append, List.cons.injEq] at h
      obtain ⟨hhigh, hlow, hrest⟩ := h
      have hb := b.toNat_lt
      have hc := c.toNat_lt
      have hhigh := hexDigit_inj hhigh
      have hlow := hexDigit_inj hlow
      have hbyte : b = c := UInt8.toNat_inj.mp (by omega)
      rw [hbyte, ih hrest]

theorem toLower_hexDigit (n : Nat) : (hexDigit n).toLower = hexDigit n := by
  have hdigits : ∀ a : Fin 16, (Nat.digitChar a).toLower = Nat.digitChar a := by decide
  exact hdigits ⟨n % 16, Nat.mod_lt _ (by decide)⟩

end Digest

theorem takeWhile_numbered (a : String) (n : Nat) :
    (a ++ ":" ++ toString n).toList.reverse.takeWhile (· != ':') =
      (Nat.toDigits 10 n).reverse := by
  have digits : ∀ c ∈ (Nat.toDigits 10 n).reverse, (c != ':') = true := by
    intro c hc
    have hdigit := Nat.isDigit_of_mem_toDigits (by decide) (by decide) (List.mem_reverse.mp hc)
    rw [bne_iff_ne]
    rintro rfl
    cases hdigit
  rw [String.toList_append, String.toList_append, Nat.toString_eq_repr, Nat.toList_repr,
    List.reverse_append, List.takeWhile_append_of_pos digits, List.reverse_append]
  exact List.append_nil _

theorem eq_of_numbered_eq {a b : String} {m n : Nat}
    (h : a ++ ":" ++ toString m = b ++ ":" ++ toString n) : m = n := by
  have hdigits : (Nat.toDigits 10 m).reverse = (Nat.toDigits 10 n).reverse := by
    rw [← takeWhile_numbered a, ← takeWhile_numbered b, h]
  calc
    m = Nat.ofDigitChars 10 (Nat.toDigits 10 m) 0 := Nat.ofDigitChars_ten_toDigits.symm
    _ = Nat.ofDigitChars 10 (Nat.toDigits 10 n) 0 := by rw [List.reverse_inj.mp hdigits]
    _ = n := Nat.ofDigitChars_ten_toDigits

def Answer.deployed? : Except LedgerError Answer → Option Handle
  | .ok (.deployed handle) => some handle
  | _ => none

namespace Effect

variable {l m : LocalLedger} {r : Request} {a : Except LedgerError Answer} {handle : Handle}

theorem of_deployed (h : Effect l r a m) (ha : Answer.deployed? a = some handle) :
    Answer.accepting a = true ∧ handle.address = l.nextAddress ∧
      (∃ args options, r = .deploy handle.kind args options) ∧
      ∃ state, l.chain.Replaces m.chain handle.address ⟨handle.kind, state⟩ := by
  cases h with
  | refused => cases ha
  | answered => cases ha
  | rejected => cases ha
  | deployed known constructed =>
    cases ha
    exact ⟨rfl, rfl, ⟨_, _, rfl⟩, _, l.chain.replaces_mine _ _⟩
  | mined found known ran => cases ha

theorem kind_kept (h : Effect l r a m) {address : String}
    (ha : ∀ handle, Answer.deployed? a = some handle → handle.address ≠ address) :
    (m.chain.contracts.get? address).map Contract.kind =
      (l.chain.contracts.get? address).map Contract.kind := by
  cases h with
  | refused => rfl
  | answered => rfl
  | rejected => rfl
  | deployed known constructed =>
    rw [l.chain.replaces_mine _ _ address, if_neg (ha _ rfl)]
  | @mined _ _ _ _ contract _ _ state found known ran =>
    exact (l.chain.replaces_mine _ ⟨contract.kind, state⟩).kind_eq found rfl address

end Effect

namespace Step

def deployed? (s : Step) : Option Handle := Answer.deployed? s.answer

/-- The text whose digest is the address of the contract that the step deploys. -/
def addressText? (s : Step) : Option String :=
  s.deployed?.map fun _ => "contract" ++ ":" ++ toString s.before.chain.nonce

/-- The text whose digest is the hash in the step's receipt. -/
def hashText? (s : Step) : Option String :=
  match s.request with
  | .send handle method _ _ => s.receipt?.map fun _ =>
      handle.address.toLower ++ ":" ++ method ++ ":" ++ toString (s.before.chain.nonce + 1)
  | _ => none

end Step

namespace LocalLedger

variable {l : LocalLedger} {requests : List Request}

/-- What of a text's digest an address shows. -/
def addressDigest (text : String) : List UInt8 := (Digest.ofText text).take 20

theorem toLower_deriveAddress (seed : String) (nonce : Nat) :
    (deriveAddress seed nonce).toLower = deriveAddress seed nonce := by
  rw [deriveAddress, String.toLower, ← String.toList_inj, String.toList_map,
    String.toList_append, Digest.toList_hexOf, List.map_append, List.map_flatMap]
  simp only [List.map_cons, List.map_nil, Digest.toLower_hexDigit]
  rfl

theorem steps_append (l : LocalLedger) (earlier later : List Request) :
    l.steps (earlier ++ later) = l.steps earlier ++ (l.afterAll earlier).steps later := by
  induction earlier generalizing l with
  | nil => rfl
  | cons r rest ih => rw [List.cons_append, steps, ih, steps, afterAll, List.cons_append]

theorem afterAll_append (l : LocalLedger) (earlier later : List Request) :
    l.afterAll (earlier ++ later) = (l.afterAll earlier).afterAll later := by
  induction earlier generalizing l with
  | nil => rfl
  | cons r rest ih => exact ih _

theorem nonce_ordered (l : LocalLedger) (requests : List Request) :
    (l.steps requests).Pairwise fun s t =>
      s.accepted = true → s.before.chain.nonce < t.before.chain.nonce := by
  induction requests generalizing l with
  | nil => exact .nil
  | cons r rest ih =>
    refine .cons ?_ (ih _)
    intro t ht haccepted
    obtain ⟨earlier, u, later, -, rfl⟩ := exists_of_mem_steps ht
    have hstep : (l.step r).after.chain.nonce =
        (l.step r).before.chain.nonce + if (l.step r).accepted then 1 else 0 :=
      (l.step r).counter_after fun _ _ _ => rfl
    have hrun : ((l.step r).after.afterAll earlier).chain.nonce =
        (l.step r).after.chain.nonce + ((l.step r).after.steps earlier).countP Step.accepted :=
      counter_afterAll (fun _ _ _ => rfl) _ earlier
    rw [if_pos haccepted] at hstep
    show (l.step r).before.chain.nonce < ((l.step r).after.afterAll earlier).chain.nonce
    omega

/-- Names that accepted steps take from digests of texts numbered with the nonce are distinct
where these texts have distinct digests. -/
theorem nodup_names {name text : Step → Option String} {digest : String → List UInt8}
    (offset : Nat) {steps : List Step}
    (ordered : steps.Pairwise fun s t =>
      s.accepted = true → s.before.chain.nonce < t.before.chain.nonce)
    (numbered : ∀ s given, name s = some given → s.accepted = true ∧ ∃ prefixed,
      text s = some (prefixed ++ ":" ++ toString (s.before.chain.nonce + offset)) ∧
      given = "0x" ++ Digest.hexOf
        (digest (prefixed ++ ":" ++ toString (s.before.chain.nonce + offset))))
    (collisionFree : Set.InjOn digest {t | t ∈ steps.filterMap text}) :
    (steps.filterMap name).Nodup := by
  refine List.pairwise_filterMap.mpr (ordered.imp_of_mem ?_)
  rintro s t hs ht hlt given hgiven _ hother rfl
  obtain ⟨haccepted, a, htext, rfl⟩ := numbered s given hgiven
  obtain ⟨-, b, htext', heq⟩ := numbered t _ hother
  -- one name means one digest, so one text and one nonce, but the nonces are in order
  have hdigest := Digest.hexOf_injective ((String.append_right_inj "0x").mp heq)
  have hnumbered := collisionFree (List.mem_filterMap.mpr ⟨s, hs, htext⟩)
    (List.mem_filterMap.mpr ⟨t, ht, htext'⟩) hdigest
  have hnonce := eq_of_numbered_eq hnumbered
  have := hlt haccepted
  omega

/-- Of which kind the contract at an address is, if there is one. -/
def kindAt? (l : LocalLedger) (address : String) : Option String :=
  (l.chain.contract? address).map Contract.kind

theorem kindAt?_afterAll {address : String}
    (undeployed : ∀ s ∈ l.steps requests, ∀ handle, s.deployed? = some handle →
      handle.address ≠ address.toLower) :
    (l.afterAll requests).kindAt? address = l.kindAt? address := by
  induction requests generalizing l with
  | nil => rfl
  | cons r rest ih =>
    rw [afterAll, ih fun s hs => undeployed s (List.mem_cons_of_mem _ hs)]
    exact (l.step r).effect.kind_kept (undeployed _ List.mem_cons_self)

theorem address_of_deployed {s : Step} {handle : Handle} (h : s.deployed? = some handle) :
    handle.address = s.before.nextAddress :=
  (s.effect.of_deployed h).2.1

theorem hashText?_of_receipt {s : Step} {receipt : Receipt} (h : s.receipt? = some receipt) :
    s.accepted = true ∧ ∃ prefixed,
      s.hashText? = some (prefixed ++ ":" ++ toString (s.before.chain.nonce + 1)) ∧
      receipt.txHash = "0x" ++ Digest.hexOf
        (Digest.ofText (prefixed ++ ":" ++ toString (s.before.chain.nonce + 1))) := by
  obtain ⟨haccepted, handle, method, args, options, hrequest, rfl⟩ := s.effect.of_receipt h
  refine ⟨haccepted, handle.address.toLower ++ ":" ++ method, ?_, rfl⟩
  rw [Step.hashText?, hrequest, h]
  rfl

theorem toLower_of_deployed {s : Step} {handle : Handle} (h : s.deployed? = some handle) :
    handle.address.toLower = handle.address := by
  rw [address_of_deployed h]
  exact toLower_deriveAddress _ _

theorem kinds_of_distinct
    (distinct : (((l.steps requests).filterMap Step.deployed?).map Handle.address).Nodup)
    {s : Step} (hs : s ∈ l.steps requests) {handle : Handle} (h : s.deployed? = some handle) :
    (∃ args options, s.request = .deploy handle.kind args options) ∧
    s.before.kindAt? handle.address = l.kindAt? handle.address ∧
    (l.afterAll requests).kindAt? handle.address = some handle.kind := by
  obtain ⟨earlier, r, later, rfl, rfl⟩ := exists_of_mem_steps hs
  have hlower := toLower_of_deployed h
  rw [steps_append, steps, List.filterMap_append, List.filterMap_cons_some h, List.map_append,
    List.map_cons, List.nodup_append, List.nodup_cons] at distinct
  obtain ⟨-, ⟨hlater, -⟩, hearlier⟩ := distinct
  obtain ⟨-, -, hrequest, state, hreplaces⟩ := ((l.afterAll earlier).step r).effect.of_deployed h
  refine ⟨hrequest, ?_, ?_⟩
  · refine kindAt?_afterAll fun t ht other hother heq => ?_
    have hmem := List.mem_map_of_mem (f := Handle.address) (List.mem_filterMap.mpr ⟨t, ht, hother⟩)
    exact hearlier _ hmem _ List.mem_cons_self (heq.trans hlower)
  · rw [afterAll_append, afterAll, kindAt?_afterAll, kindAt?, Chain.contract?, hlower,
      hreplaces, if_pos rfl]
    · rfl
    · intro t ht other hother heq
      have hmem := List.mem_map_of_mem (f := Handle.address)
        (List.mem_filterMap.mpr ⟨t, ht, hother⟩)
      rw [heq, hlower] at hmem
      exact hlater hmem

/-- In any calls where no two hashed texts share a digest, the addresses of the deployed contracts
are distinct. A deployment finds at its address only what was there from the start, and in the end
the contract there is of the kind that was deployed. All hashes in receipts are distinct. -/
theorem derived_names_fresh (l : LocalLedger) (requests : List Request)
    (addresses : Set.InjOn addressDigest
      {text | text ∈ (l.steps requests).filterMap Step.addressText?})
    (hashes : Set.InjOn Digest.ofText
      {text | text ∈ (l.steps requests).filterMap Step.hashText?}) :
    (((l.steps requests).filterMap Step.deployed?).map Handle.address).Nodup ∧
    (∀ s ∈ l.steps requests, ∀ handle, s.deployed? = some handle →
      (∃ args options, s.request = .deploy handle.kind args options) ∧
      s.before.kindAt? handle.address = l.kindAt? handle.address ∧
      (l.afterAll requests).kindAt? handle.address = some handle.kind) ∧
    (((l.steps requests).filterMap Step.receipt?).map Receipt.txHash).Nodup := by
  have hdistinct : (((l.steps requests).filterMap Step.deployed?).map Handle.address).Nodup := by
    rw [List.map_filterMap]
    refine nodup_names 0 (l.nonce_ordered requests) ?_ addresses
    intro s address haddress
    obtain ⟨handle, hhandle, rfl⟩ := Option.map_eq_some_iff.mp haddress
    refine ⟨(s.effect.of_deployed hhandle).1, "contract", ?_, address_of_deployed hhandle⟩
    rw [Step.addressText?, hhandle]
    rfl
  refine ⟨hdistinct, fun s hs handle h => kinds_of_distinct hdistinct hs h, ?_⟩
  rw [List.map_filterMap]
  refine nodup_names 1 (l.nonce_ordered requests) ?_ hashes
  intro s hash hhash
  obtain ⟨receipt, hreceipt, rfl⟩ := Option.map_eq_some_iff.mp hhash
  exact hashText?_of_receipt hreceipt

def obliging : Program := ⟨fun _ _ => .ok .empty, fun _ _ _ => .ok .null, fun _ _ _ => pure .null⟩

def obligingRequests : List Request :=
  let first : Handle := ⟨"Any", deriveAddress "contract" 0⟩
  [.deploy "Any" [] .none, .send first "put:2" [] .none, .send first "put" [] .none,
    .deploy "Any" [] .none]

theorem derived_names_fresh_obliging :
    let l : LocalLedger := ⟨Roster.empty.insert "Any" obliging, [], .genesis⟩
    let steps := l.steps obligingRequests
    Set.InjOn addressDigest {text | text ∈ steps.filterMap Step.addressText?} ∧
    Set.InjOn Digest.ofText {text | text ∈ steps.filterMap Step.hashText?} ∧
    (steps.filterMap Step.deployed?).length = 2 ∧ (steps.filterMap Step.receipt?).length = 2 ∧
    ((steps.filterMap Step.deployed?).map Handle.address).Nodup ∧
    ((steps.filterMap Step.receipt?).map Receipt.txHash).Nodup := by
  intro l steps
  have hdigests : ((steps.filterMap Step.addressText?).map addressDigest).Nodup ∧
      ((steps.filterMap Step.hashText?).map Digest.ofText).Nodup ∧
      (steps.filterMap Step.deployed?).length = 2 ∧
      (steps.filterMap Step.receipt?).length = 2 := by decide +kernel
  obtain ⟨haddresses, hhashes, hdeployed, hreceipts⟩ := hdigests
  have addresses : Set.InjOn addressDigest {text | text ∈ steps.filterMap Step.addressText?} :=
    fun _ hs _ ht h => List.inj_on_of_nodup_map haddresses hs ht h
  have hashes : Set.InjOn Digest.ofText {text | text ∈ steps.filterMap Step.hashText?} :=
    fun _ hs _ ht h => List.inj_on_of_nodup_map hhashes hs ht h
  obtain ⟨hfresh, -, hdistinct⟩ := derived_names_fresh l obligingRequests addresses hashes
  exact ⟨addresses, hashes, hdeployed, hreceipts, hfresh, hdistinct⟩

end LocalLedger

end LedgerScript
